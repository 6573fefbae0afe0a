import ChartParsing.Proofs.Chart.Filling
import ChartParsing.Proofs.Tree.Parse

/-!
# The trees of a chart are parse trees

Whatever a policy picks among its candidates, the recurrence lists nothing but parse trees
(`isParse_of_mem_treesAt`), and over one character it lists all of them
(`mem_characterTrees_iff_isParse`). A filled chart shows exactly the trees of the recurrence
(`Filling.IsFull.treesOn_eq`), so that what is proved of the recurrence holds of charts.
-/

namespace ChartParsing

/-- The trees that were committed over a span. -/
def Chart.treesOn {σ : Type} (ch : Chart (Cell σ)) (s : Span) : List (Tree σ) :=
  match ch.get? s with
  | some cell => cell.nodes
  | none => []

/-- The trees that were committed over the whole text. -/
def Chart.topTrees {σ : Type} (ch : Chart (Cell σ)) : List (Tree σ) :=
  match ch.top? with
  | some cell => cell.nodes
  | none => []

variable {σ : Type} [DecidableEq σ] {g : Grammar σ} {lookup : Char → Option σ}
variable {spells : σ → Char → Prop} {policy : Policy σ} {text : List Char}

theorem Chart.accepts_iff {ch : Chart (Cell σ)} {a : σ} :
    ch.accepts a = true ↔ ∃ t ∈ ch.topTrees, t.kind = a := by
  rw [accepts, topTrees]
  cases ch.top? with
  | none => simp
  | some cell => exact Cell.has_iff.trans List.mem_map

/-- The tree that is looked up over the whole text is the first one of its symbol. -/
theorem Chart.bind_lookup_top? (ch : Chart (Cell σ)) (a : σ) :
    ch.top?.bind (·.lookup a) = ch.topTrees.find? fun t => decide (t.kind = a) := by
  rw [topTrees]
  cases ch.top? <;> rfl

/-- A chart accepts a symbol when it gives a tree of the symbol over the whole text. -/
theorem Chart.accepts_eq_isSome (ch : Chart (Cell σ)) (a : σ) :
    ch.accepts a = (ch.top?.bind (·.lookup a)).isSome := by
  rw [accepts]
  cases ch.top? <;> rfl

namespace Grammar

/-- The trees over one character are its parse trees. -/
theorem mem_characterTrees_iff_isParse (hr : g.Reads lookup spells) {i : Nat} {t : Tree σ} :
    t ∈ g.characterTrees lookup text i ↔ t.IsParse g spells text ∧ t.span = ⟨i, (1 : Nat)⟩ := by
  rw [mem_characterTrees]
  constructor
  · rintro ⟨a, s, c, hc, hs, ha, rfl⟩
    exact ⟨⟨ha, i, c, rfl, hc, (hr.lookup_iff a s ha c).1 hs⟩, rfl⟩
  · rintro ⟨hp, hspan⟩
    cases t with
    | leaf l => exact hp.elim
    | unary a child =>
      obtain ⟨ha, j, c, hj, hc, hs⟩ := hp
      obtain ⟨s, position⟩ := child
      simp only at hj
      subst hj
      have hij : (j : Int) = i := by
        simpa [Tree.span, Leaf.span] using hspan
      obtain rfl : j = i := by omega
      exact ⟨a, s, c, hc, (hr.lookup_iff a s ha c).2 hs, ha, rfl⟩
    | binary a s left right =>
      obtain ⟨k, hk, hkl, -⟩ := hp.exists_parts hspan
      omega

/-- If the policy invents no trees, those of the recurrence are parse trees. -/
theorem isParse_of_mem_treesAt (hr : g.Reads lookup spells) (hp : policy.OnlyPicks) {i l : Nat}
    {t : Tree σ} (ht : t ∈ g.treesAt lookup policy text i l) :
    t.IsParse g spells text ∧ t.span = ⟨i, l⟩ := by
  induction l using Nat.strongRecOn generalizing i t with
  | _ l ih =>
    by_cases h0 : l = 0
    · subst h0
      rw [treesAt_zero] at ht
      cases ht
    by_cases h1 : l = 1
    · subst h1
      rw [treesAt_one] at ht
      exact (mem_characterTrees_iff_isParse hr).1 ht
    · obtain ⟨k, hk, hkl, a, x, hx, y, hy, hrule, rfl⟩ :=
        exists_join_of_mem_treesAt hp (by omega) ht
      obtain ⟨hx, hxs⟩ := ih k hkl hx
      obtain ⟨hy, hys⟩ := ih (l - k) (by omega) hy
      obtain ⟨hparse, hspan⟩ := hx.branch hy hrule hxs hys
      have hlen : k + (l - k) = l := by omega
      exact ⟨hparse, hlen ▸ hspan⟩

/-- The symbols of the trees over a span are those that derive it. -/
def IsExactOver (g : Grammar σ) (lookup : Char → Option σ) (spells : σ → Char → Prop)
    (policy : Policy σ) (text : List Char) (i l : Nat) : Prop :=
  ∀ a, (∃ t ∈ g.treesAt lookup policy text i l, t.kind = a) ↔
    g.DerivesText spells a (slice text i l)

/-- What a policy picks over a span derives it. -/
theorem derivesText_of_mem_treesAt (hr : g.Reads lookup spells) (hp : policy.OnlyPicks)
    {i l : Nat} {t : Tree σ} (ht : t ∈ g.treesAt lookup policy text i l) :
    g.DerivesText spells t.kind (slice text i l) := by
  obtain ⟨hparse, hspan⟩ := isParse_of_mem_treesAt hr hp ht
  have := hparse.derivesText
  rwa [hspan, Span.slice_mk] at this

/-- The trees over a span that does not lie within the text: there are none. -/
theorem treesAt_eq_nil (hr : g.Reads lookup spells) (hp : policy.OnlyPicks) {i l : Nat}
    (h : text.length < i + l) : g.treesAt lookup policy text i l = [] := by
  rw [List.eq_nil_iff_forall_not_mem]
  intro t ht
  obtain ⟨hparse, hspan⟩ := isParse_of_mem_treesAt hr hp ht
  obtain ⟨j, m, -, hj, hs⟩ := hparse.exists_span
  rw [hspan, Span.mk.injEq] at hs
  omega

end Grammar

namespace Filling

variable {f : Filling σ}

/-- A filled chart shows trees on the spans of the text only. -/
theorem IsFull.treesOn_eq_nil (h : f.IsFull g lookup policy text) {s : Span}
    (hs : s ∉ Grammar.spansOf text.length) : f.chart.treesOn s = [] := by
  rw [Chart.treesOn, h.get?_of_not_mem hs]

/-- A filled chart shows the trees of the recurrence. -/
theorem IsFull.treesOn_eq (h : f.IsFull g lookup policy text) {i l : Nat}
    (hi : i + l ≤ text.length) :
    f.chart.treesOn ⟨i, l⟩ = g.treesAt lookup policy text i l := by
  by_cases hs : (⟨i, l⟩ : Span) ∈ Grammar.spansOf text.length
  · rw [Chart.treesOn, h.get?_of_mem hs]
    cases hc : g.cellOver? lookup policy text ⟨i, l⟩ with
    | none => exact (Grammar.cellOver?_eq_none_iff.1 hc).symm
    | some cell =>
      obtain ⟨-, rfl⟩ := Grammar.cellOver?_eq_some_iff.1 hc
      rfl
  · have hl : l = 0 := by
      apply Nat.eq_zero_of_not_pos
      exact fun hl => hs (Grammar.mem_spansOf.2 ⟨i, l, hl, hi, rfl⟩)
    rw [h.treesOn_eq_nil hs, hl, Grammar.treesAt_zero]

/-- The cell over a whole text that is not empty. -/
theorem IsFull.top?_eq (h : f.IsFull g lookup policy text) (hne : text ≠ []) :
    f.chart.top? = f.chart.get? ⟨(0 : Nat), text.length⟩ := by
  have := List.length_pos_iff.2 hne
  rw [Chart.top?, h.size, if_neg (by omega)]
  rfl

/-- The trees over the whole text are those of the recurrence. -/
theorem IsFull.topTrees_eq (h : f.IsFull g lookup policy text) :
    f.chart.topTrees = g.treesAt lookup policy text 0 text.length := by
  by_cases hne : text = []
  · subst hne
    have htop : f.chart.top? = none := by
      rw [Chart.top?, h.size]
      rfl
    rw [Chart.topTrees, htop, List.length_nil, Grammar.treesAt_zero]
  · rw [← h.treesOn_eq (by omega), Chart.topTrees, h.top?_eq hne]
    rfl

end Filling

end ChartParsing
