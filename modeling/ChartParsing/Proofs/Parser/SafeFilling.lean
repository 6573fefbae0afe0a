import ChartParsing.Proofs.Chart.Agreement
import ChartParsing.Proofs.Parser.Answers

/-!
# Charts are filled without a breach

Filling a chart splits spans, builds nodes, adds them to cells and commits the cells, each time by
an operation that checks its arguments. With a policy that invents nothing no check ever fails, and
the chart is orderly: its cells stand from the shortest span to the longest and from left to right,
within the text, and each holds trees over its own span whose parts meet
(`Parser.fill_without_breach`).
-/

namespace ChartParsing

section Orderly

variable {σ : Type}

/-- A cell has trees, all over one span, and the parts of every node in them meet. -/
structure Cell.IsSoundOver (c : Cell σ) (span : Span) : Prop where
  covers : c.Covers span
  ne_nil : c.nodes ≠ []
  contiguous : ∀ t ∈ c.nodes, t.IsContiguous

/-- The cells of a chart stand from the shortest span to the longest and from left to right, each
of them over its span, and all spans are parts of the text that are not empty. -/
structure Chart.IsOrderly (ch : Chart (Cell σ)) : Prop where
  ordered : ch.spans.Pairwise Span.Precedes
  bounds : ∀ s ∈ ch.spans, 0 ≤ s.start ∧ 1 ≤ s.length ∧ s.start + s.length ≤ ch.size
  cells : ∀ s cell, ch.get? s = some cell → cell.IsSoundOver s

variable [DecidableEq σ] {g : Grammar σ} {lookup : Char → Option σ} {spells : σ → Char → Prop}
variable {policy : Policy σ} {text : List Char} {i l : Nat}

/-- The parts of every node of a parse tree meet. -/
theorem Tree.IsParse.isContiguous {t : Tree σ} (h : t.IsParse g spells text) : t.IsContiguous := by
  induction t with
  | leaf l => exact h.elim
  | unary a child => trivial
  | binary a s left right ihl ihr =>
    obtain ⟨-, htiles, hl, hr⟩ := h
    exact ⟨⟨htiles.span_eq, htiles.adjacent⟩, ihl hl, ihr hr⟩

namespace Grammar

/-- The cell of the recurrence over a span is sound. -/
theorem isSoundOver_of_cellOver? (hr : g.Reads lookup spells) (hs : policy.StaysOver)
    (hp : policy.OnlyPicks) {c : Cell σ} (hc : g.cellOver? lookup policy text ⟨i, l⟩ = some c) :
    c.IsSoundOver ⟨i, l⟩ := by
  refine ⟨covers_of_cellOver? hs hc, ?_, fun t ht => ?_⟩ <;>
    obtain ⟨hne, rfl⟩ := cellOver?_eq_some_iff.1 hc
  · exact hne
  · exact (isParse_of_mem_treesAt hr hp ht).1.isContiguous

/-- The cell that a candidate of a span offers is sound. -/
theorem isSoundOver_of_mem_candidatesAt (hr : g.Reads lookup spells) (hs : policy.StaysOver)
    (hp : policy.OnlyPicks) {c : Candidate σ} (hc : c ∈ g.candidatesAt lookup policy text i l) :
    c.cell.IsSoundOver ⟨i, l⟩ := by
  refine ⟨covers_of_mem_candidatesAt hs hc, nodes_ne_nil_of_mem_candidatesOf hc, fun t ht => ?_⟩
  obtain ⟨k, -, -, -, rfl⟩ := mem_candidatesAt.1 hc
  obtain ⟨a, x, hx, y, hy, hrule, rfl⟩ := mem_joinedTrees.1 ht
  obtain ⟨hx, hxs⟩ := isParse_of_mem_treesAt hr hp hx
  obtain ⟨hy, hys⟩ := isParse_of_mem_treesAt hr hp hy
  exact (hx.branch hy hrule hxs hys).1.isContiguous

end Grammar

/-- A filled chart is orderly. -/
theorem Filling.IsFull.isOrderly {f : Filling σ} (h : f.IsFull g lookup policy text)
    (hr : g.Reads lookup spells) (hs : policy.StaysOver) (hp : policy.OnlyPicks) :
    f.chart.IsOrderly where
  ordered := by
    rw [h.spans_eq]
    exact (Grammar.pairwise_spansOf text.length).filter _
  bounds s hspan := by
    rw [h.spans_eq] at hspan
    obtain ⟨i, l, hl, hi, rfl⟩ := Grammar.mem_spansOf.1 (List.mem_of_mem_filter hspan)
    rw [h.size]
    show 0 ≤ (i : Int) ∧ 1 ≤ (l : Int) ∧ (i : Int) + l ≤ (text.length : Nat)
    omega
  cells s cell hcell := by
    by_cases hspan : s ∈ Grammar.spansOf text.length
    · rw [h.get?_of_mem hspan] at hcell
      obtain ⟨i, l, -, -, rfl⟩ := Grammar.mem_spansOf.1 hspan
      exact Grammar.isSoundOver_of_cellOver? hr hs hp hcell
    · rw [h.get?_of_not_mem hspan] at hcell
      cases hcell

end Orderly

namespace Parser

variable {p : Parser} {names : NameTable} {text : String}

/-- With a policy that invents nothing, the chart of every text within the limit is filled without
a breach, and it is orderly; so is every cell that was shown to the policy on the way. -/
theorem fill_without_breach (hg : p.grammar.IsBuiltOver names) (hp : p.policy.IsHonest)
    (ha : p.Admits text) :
    ∃ f, p.fill names text = .ok f ∧ f.chart.size = text.length ∧ f.chart.IsOrderly ∧
      ∀ contest ∈ f.contests, ∀ c ∈ contest.candidates, c.cell.IsSoundOver contest.span := by
  obtain ⟨f, hfill, hf⟩ := exists_fill hg hp.staysOver ha
  refine ⟨f, hfill, ?_, hf.isOrderly hg.reads hp.staysOver hp.onlyPicks, ?_⟩
  · rw [hf.size, String.length_toList]
  · intro contest hcontest c hc
    obtain ⟨i, l, -, -, rfl⟩ := hf.mem_contests_iff.1 hcontest
    exact Grammar.isSoundOver_of_mem_candidatesAt hg.reads hp.staysOver hp.onlyPicks hc

/-- A policy that makes one cell of all candidates fills the chart of three letters, in which every
span has a cell. -/
theorem letters_fill_without_breach :
    let p : Parser := ⟨.letters, .merge, none⟩
    p.grammar.IsBuiltOver Grammar.letterNames ∧ p.policy.IsHonest ∧ p.Admits "aaa" ∧
      ∃ f, p.fill Grammar.letterNames "aaa" = .ok f ∧ f.chart.IsOrderly ∧
        f.chart.spans = [⟨0, 1⟩, ⟨1, 1⟩, ⟨2, 1⟩, ⟨0, 2⟩, ⟨1, 2⟩, ⟨0, 3⟩] := by
  intro p
  have ha : p.Admits "aaa" := admits_of_no_limit _ _ _
  have hspans : (p.fill Grammar.letterNames "aaa").toOption.map (·.chart.spans) =
      some [⟨0, 1⟩, ⟨1, 1⟩, ⟨2, 1⟩, ⟨0, 2⟩, ⟨1, 2⟩, ⟨0, 3⟩] := by
    decide +kernel
  obtain ⟨f, hfill, -, horderly, -⟩ :=
    fill_without_breach (p := p) Grammar.letters_isBuiltOver Policy.merge_isHonest ha
  rw [hfill] at hspans
  exact ⟨Grammar.letters_isBuiltOver, Policy.merge_isHonest, ha, f, hfill, horderly,
    Option.some.inj hspans⟩

-- A policy that makes a cell over a span of its own can name one that is taken.
example : ((Parser.mk .letters (fun _ => .made ⟨⟨0, 1⟩, [.unary 0 ⟨1, 0⟩]⟩) none).fill
    Grammar.letterNames "aa").toOption.isNone := by
  decide +kernel

end Parser

end ChartParsing
