import ChartParsing.Chart.Policy

/-!
# What policies choose

Only the trees of a choice reach the chart. The predicates here say what a policy may do with
its candidates: choose something that covers their span (`Policy.StaysOver`), choose no trees
but theirs (`Policy.OnlyPicks`), choose one of them whenever it can (`Policy.IsDecisive`), or
keep the trees of all of them (`Policy.KeepsAll`). An honest policy, a decisive one and one
that keeps everything all do the first two.
-/

namespace ChartParsing

variable {σ : Type}

/-- The trees of the cell chosen. -/
def Choice.trees (c : Choice σ) : List (Tree σ) :=
  match c.cell? with
  | some cell => cell.nodes
  | none => []

/-- Whether a cell and all its trees cover a span. -/
def Cell.Covers (c : Cell σ) (span : Span) : Prop :=
  c.span = span ∧ ∀ t ∈ c.nodes, t.span = span

namespace Policy

/-- For candidates over a span, a policy chooses a cell over the same span or one that is
empty. -/
def StaysOver (p : Policy σ) : Prop :=
  ∀ span cs, (∀ c ∈ cs, c.cell.Covers span) →
    ∀ cell, (p cs).cell? = some cell → cell.nodes ≠ [] → cell.Covers span

/-- A policy chooses no tree that is in none of its candidates. -/
def OnlyPicks (p : Policy σ) : Prop :=
  ∀ span cs, (∀ c ∈ cs, c.cell.span = span) →
    ∀ t ∈ (p cs).trees, ∃ c ∈ cs, t ∈ c.cell.nodes

/-- A policy that chooses a candidate whenever there is one, and no trees otherwise. -/
structure IsDecisive (p : Policy σ) : Prop where
  selective : p.IsSelective
  trees_nil : (p []).trees = []

/-- A policy that commits the trees of all candidates of a span, in order. -/
structure KeepsAll (p : Policy σ) : Prop where
  cell_eq : ∀ span cs, cs ≠ [] → (∀ c ∈ cs, c.cell.span = span) →
    (p cs).cell? = some ⟨span, cs.flatMap (·.cell.nodes)⟩
  trees_nil : (p []).trees = []

theorem IsHonest.onlyPicks {p : Policy σ} (h : p.IsHonest) : p.OnlyPicks := by
  intro _ cs _ t ht
  have hcs := h cs
  cases hp : p cs with
  | nothing => simp [hp, Choice.trees, Choice.cell?] at ht
  | candidate c =>
    simp only [hp] at hcs
    simp only [hp, Choice.trees, Choice.cell?] at ht
    exact ⟨c, hcs, ht⟩
  | made cell =>
    simp only [hp] at hcs
    simp only [hp, Choice.trees, Choice.cell?] at ht
    rcases hcs with hcs | ⟨-, hcs⟩
    · simp [hcs] at ht
    · exact hcs t ht

theorem IsHonest.staysOver {p : Policy σ} (h : p.IsHonest) : p.StaysOver := by
  intro span cs hover cell hc hne
  have hcs := h cs
  cases hp : p cs with
  | nothing => simp [hp, Choice.cell?] at hc
  | candidate c =>
    simp only [hp] at hcs
    simp only [hp, Choice.cell?, Option.some.injEq] at hc
    exact hc ▸ hover c hcs
  | made made =>
    simp only [hp] at hcs
    simp only [hp, Choice.cell?, Option.some.injEq] at hc
    subst hc
    rcases hcs with hcs | ⟨⟨c, hc, hs⟩, hcs⟩
    · exact absurd hcs hne
    · refine ⟨hs ▸ (hover c hc).1, fun t ht => ?_⟩
      obtain ⟨c, hc, ht⟩ := hcs t ht
      exact (hover c hc).2 t ht

theorem IsDecisive.exists_candidate {p : Policy σ} (h : p.IsDecisive) {cs : List (Candidate σ)}
    (hcs : cs ≠ []) : ∃ c ∈ cs, p cs = .candidate c ∧ (p cs).trees = c.cell.nodes := by
  obtain ⟨c, hc, hp⟩ := h.selective cs hcs
  exact ⟨c, hc, hp, by rw [hp]; rfl⟩

theorem IsDecisive.staysOver {p : Policy σ} (h : p.IsDecisive) : p.StaysOver := by
  intro span cs hover cell hc hne
  by_cases hcs : cs = []
  · have hn := h.trees_nil
    rw [hcs] at hc
    rw [Choice.trees, hc] at hn
    exact absurd hn hne
  · obtain ⟨c, hm, hp⟩ := h.selective cs hcs
    rw [hp, Choice.cell?, Option.some.injEq] at hc
    exact hc ▸ hover c hm

theorem IsDecisive.onlyPicks {p : Policy σ} (h : p.IsDecisive) : p.OnlyPicks := by
  intro _ cs _ t ht
  by_cases hcs : cs = []
  · rw [hcs, h.trees_nil] at ht
    exact absurd ht List.not_mem_nil
  · obtain ⟨c, hc, -, he⟩ := h.exists_candidate hcs
    exact ⟨c, hc, he ▸ ht⟩

theorem KeepsAll.trees_eq {p : Policy σ} (h : p.KeepsAll) {span : Span}
    {cs : List (Candidate σ)} (hover : ∀ c ∈ cs, c.cell.span = span) :
    (p cs).trees = cs.flatMap (·.cell.nodes) := by
  by_cases hcs : cs = []
  · rw [hcs, h.trees_nil, List.flatMap_nil]
  · rw [Choice.trees, h.cell_eq span cs hcs hover]

theorem KeepsAll.staysOver {p : Policy σ} (h : p.KeepsAll) : p.StaysOver := by
  intro span cs hover cell hc hne
  have hs : ∀ c ∈ cs, c.cell.span = span := fun c hm => (hover c hm).1
  by_cases hcs : cs = []
  · have hn := h.trees_nil
    rw [hcs] at hc
    rw [Choice.trees, hc] at hn
    exact absurd hn hne
  · rw [h.cell_eq span cs hcs hs, Option.some.injEq] at hc
    subst hc
    refine ⟨rfl, fun t ht => ?_⟩
    obtain ⟨c, hm, ht⟩ := List.mem_flatMap.1 ht
    exact (hover c hm).2 t ht

theorem KeepsAll.onlyPicks {p : Policy σ} (h : p.KeepsAll) : p.OnlyPicks := by
  intro span cs hover t ht
  rw [h.trees_eq hover] at ht
  exact List.mem_flatMap.1 ht

theorem rightmost_isHonest : (rightmost : Policy σ).IsHonest := by
  intro cs
  unfold rightmost
  cases h : cs.getLast? with
  | none => trivial
  | some c => exact List.mem_of_getLast? h

theorem leftmost_isHonest : (leftmost : Policy σ).IsHonest := by
  intro cs
  unfold leftmost
  cases h : cs.head? with
  | none => trivial
  | some c => exact List.mem_of_head? h

theorem merge_isHonest : (merge : Policy σ).IsHonest := by
  intro cs
  cases cs with
  | nil => trivial
  | cons c cs =>
    exact .inr ⟨⟨c, List.mem_cons_self, rfl⟩, fun t ht => List.mem_flatMap.1 ht⟩

theorem rightmost_isDecisive : (rightmost : Policy σ).IsDecisive :=
  ⟨rightmost_isSelective, rfl⟩

theorem leftmost_isDecisive : (leftmost : Policy σ).IsDecisive :=
  ⟨leftmost_isSelective, rfl⟩

end Policy

end ChartParsing
