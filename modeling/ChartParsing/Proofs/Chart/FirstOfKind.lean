import ChartParsing.Proofs.Chart.Content
import ChartParsing.Proofs.Tree.Renaming

/-!
# Only the first tree of each symbol counts

A cell can hold several trees of one symbol, which multiply when cells are joined, but the first
tree of each symbol is always joined from first trees (`Grammar.firstOfEachKind_joinedTrees`). So
when a policy that goes by the splits alone commits no more than the first trees of the cell that
it chooses, the recurrence gives over every span the first trees of what it gave before
(`Grammar.treesAt_firstOfEachKind`).
-/

namespace ChartParsing

variable {σ : Type} [DecidableEq σ]

/-- The first tree of each symbol, in order. -/
def firstOfEachKind : List (Tree σ) → List (Tree σ)
  | [] => []
  | t :: ts => t :: (firstOfEachKind ts).filter fun u => decide (u.kind ≠ t.kind)

section Lists

variable {ts xs ys : List (Tree σ)} {t : Tree σ}

theorem firstOfEachKind_eq_nil_iff : firstOfEachKind ts = [] ↔ ts = [] := by
  cases ts <;> simp [firstOfEachKind]

theorem mem_of_mem_firstOfEachKind (h : t ∈ firstOfEachKind ts) : t ∈ ts := by
  induction ts with
  | nil => cases h
  | cons u ts ih =>
    rcases List.mem_cons.1 h with rfl | h
    · exact List.mem_cons_self
    · exact List.mem_cons_of_mem u (ih (List.mem_filter.1 h).1)

/-- Every symbol keeps its first tree. -/
theorem find?_firstOfEachKind (ts : List (Tree σ)) (kind : σ) :
    (firstOfEachKind ts).find? (fun t => decide (t.kind = kind)) =
      ts.find? fun t => decide (t.kind = kind) := by
  induction ts with
  | nil => rfl
  | cons u ts ih =>
    rw [firstOfEachKind, List.find?_cons, List.find?_cons, List.find?_filter]
    by_cases hu : u.kind = kind
    · simp [hu]
    · -- dropping the trees of another symbol drops none of this one
      have htest : (fun t : Tree σ => decide (decide (t.kind ≠ u.kind) = true ∧
          decide (t.kind = kind) = true)) = fun t => decide (t.kind = kind) := by
        funext t
        by_cases ht : t.kind = kind
        · simp [ht, Ne.symm hu]
        · simp [ht]
      rw [htest, ih]

/-- Filtering by symbols and taking first trees can be done in either order. -/
theorem firstOfEachKind_filter (p : σ → Bool) (ts : List (Tree σ)) :
    firstOfEachKind (ts.filter fun t => p t.kind) =
      (firstOfEachKind ts).filter fun t => p t.kind := by
  induction ts with
  | nil => rfl
  | cons u ts ih =>
    rw [firstOfEachKind]
    by_cases hu : p u.kind = true
    · rw [List.filter_cons, List.filter_cons, if_pos hu, if_pos hu, firstOfEachKind, ih,
        List.filter_comm]
    · rw [List.filter_cons, List.filter_cons, if_neg hu, if_neg hu, ih, List.filter_filter]
      refine List.filter_congr fun t _ => ?_
      by_cases ht : t.kind = u.kind
      · simp [ht, hu]
      · simp [ht]

/-- The first trees of two lists are those of the first list and those of the second list whose
symbols are new. -/
theorem firstOfEachKind_append (xs ys : List (Tree σ)) :
    firstOfEachKind (xs ++ ys) = firstOfEachKind xs ++
      (firstOfEachKind ys).filter fun y => decide (y.kind ∉ xs.map Tree.kind) := by
  induction xs with
  | nil => simp [firstOfEachKind]
  | cons x xs ih =>
    rw [List.cons_append, firstOfEachKind, ih, List.filter_append, List.filter_filter,
      firstOfEachKind, List.cons_append]
    congr 3
    funext y
    simp

/-- Trees of different symbols are all first trees. -/
theorem firstOfEachKind_of_nodup (h : (ts.map Tree.kind).Nodup) : firstOfEachKind ts = ts := by
  induction ts with
  | nil => rfl
  | cons u ts ih =>
    obtain ⟨hu, hts⟩ := List.nodup_cons.1 h
    rw [firstOfEachKind, ih hts, List.filter_eq_self.2]
    intro t ht
    exact decide_eq_true fun he => hu (he ▸ List.mem_map_of_mem ht)

/-- Lists with the same first trees have the same symbols. -/
theorem mem_kinds_iff_of_firstOfEachKind (h : firstOfEachKind xs = firstOfEachKind ys) {a : σ} :
    a ∈ xs.map Tree.kind ↔ a ∈ ys.map Tree.kind := by
  have hkinds : ∀ ts : List (Tree σ), a ∈ ts.map Tree.kind ↔
      (ts.find? fun t => decide (t.kind = a)).isSome := by
    intro ts
    simp
  rw [hkinds, hkinds, ← find?_firstOfEachKind xs, h, find?_firstOfEachKind]

theorem firstOfEachKind_append_congr {xs' ys' : List (Tree σ)}
    (hx : firstOfEachKind xs = firstOfEachKind xs')
    (hy : firstOfEachKind ys = firstOfEachKind ys') :
    firstOfEachKind (xs ++ ys) = firstOfEachKind (xs' ++ ys') := by
  rw [firstOfEachKind_append, firstOfEachKind_append, hx, hy]
  simp only [mem_kinds_iff_of_firstOfEachKind hx]

theorem firstOfEachKind_flatMap_congr {ι : Type} {f g : ι → List (Tree σ)} {is : List ι}
    (h : ∀ i ∈ is, firstOfEachKind (f i) = firstOfEachKind (g i)) :
    firstOfEachKind (is.flatMap f) = firstOfEachKind (is.flatMap g) := by
  induction is with
  | nil => rfl
  | cons i is ih =>
    rw [List.flatMap_cons, List.flatMap_cons]
    exact firstOfEachKind_append_congr (h i List.mem_cons_self)
      (ih fun j hj => h j (List.mem_cons_of_mem i hj))

/-- If the symbols of what is made of a tree depend on its symbol alone, the first trees of what
is made of some trees are made of their first trees. -/
theorem firstOfEachKind_flatMap {f : Tree σ → List (Tree σ)}
    (hf : ∀ x y : Tree σ, x.kind = y.kind → (f x).map Tree.kind = (f y).map Tree.kind)
    (ts : List (Tree σ)) :
    firstOfEachKind (ts.flatMap f) = firstOfEachKind ((firstOfEachKind ts).flatMap f) := by
  induction ts with
  | nil => rfl
  | cons u ts ih =>
    -- what later trees of the symbol of `u` make is of no new symbol
    have hlater : ∀ us : List (Tree σ),
        (us.flatMap f).filter (fun y => decide (y.kind ∉ (f u).map Tree.kind)) =
          ((us.filter fun v => decide (v.kind ≠ u.kind)).flatMap f).filter
            fun y => decide (y.kind ∉ (f u).map Tree.kind) := by
      intro us
      induction us with
      | nil => rfl
      | cons v us ih =>
        rw [List.flatMap_cons, List.filter_append, ih]
        by_cases hv : v.kind = u.kind
        · rw [List.filter_cons_of_neg (by simp [hv])]
          have hnone : (f v).filter (fun y => decide (y.kind ∉ (f u).map Tree.kind)) = [] := by
            rw [List.filter_eq_nil_iff, ← hf v u hv]
            intro y hy
            simpa using ⟨y, hy, rfl⟩
          rw [hnone, List.nil_append]
        · rw [List.filter_cons_of_pos (by simp [hv]), List.flatMap_cons, List.filter_append]
    rw [List.flatMap_cons, firstOfEachKind, List.flatMap_cons, firstOfEachKind_append,
      firstOfEachKind_append, ih]
    congr 1
    rw [← firstOfEachKind_filter fun a => decide (a ∉ (f u).map Tree.kind), hlater,
      firstOfEachKind_filter fun a => decide (a ∉ (f u).map Tree.kind)]

end Lists

/-- A cell with the first tree of each symbol. -/
def Cell.firstOfEachKind (c : Cell σ) : Cell σ :=
  ⟨c.span, ChartParsing.firstOfEachKind c.nodes⟩

theorem Cell.lookup_firstOfEachKind (c : Cell σ) (kind : σ) :
    c.firstOfEachKind.lookup kind = c.lookup kind :=
  find?_firstOfEachKind c.nodes kind

namespace Policy

/-- The policy that commits the first tree of each symbol of the cell that a policy chooses, over
the span of that cell. -/
def firstOfEachKind (p : Policy σ) : Policy σ := fun cs =>
  match (p cs).cell? with
  | some cell => .made cell.firstOfEachKind
  | none => .nothing

variable {p : Policy σ}

theorem trees_firstOfEachKind (p : Policy σ) (cs : List (Candidate σ)) :
    (p.firstOfEachKind cs).trees = ChartParsing.firstOfEachKind (p cs).trees := by
  unfold firstOfEachKind
  rw [Choice.trees.eq_def (p cs)]
  cases (p cs).cell? <;> rfl

theorem StaysOver.firstOfEachKind (h : p.StaysOver) : p.firstOfEachKind.StaysOver := by
  intro span cs hover cell hcell hne
  unfold Policy.firstOfEachKind at hcell
  cases hp : (p cs).cell? with
  | none =>
    rw [hp] at hcell
    cases hcell
  | some chosen =>
    rw [hp] at hcell
    obtain rfl := Option.some.inj hcell
    have hcovers := h span cs hover chosen hp fun hnil => hne (firstOfEachKind_eq_nil_iff.2 hnil)
    exact ⟨hcovers.1, fun t ht => hcovers.2 t (mem_of_mem_firstOfEachKind ht)⟩

/-- A policy picks a candidate by its place in the list. -/
def PicksByPlace (p : Policy σ) : Prop :=
  ∀ ⦃S : Candidate σ → Candidate σ → Prop⦄ ⦃cs ds⦄, List.Forall₂ S cs ds →
    ∃ c d, Option.Rel S c d ∧ p cs = .ofCandidate? c ∧ p ds = .ofCandidate? d

omit [DecidableEq σ] in
theorem leftmost_picksByPlace : (leftmost : Policy σ).PicksByPlace :=
  fun _ cs ds h => ⟨cs.head?, ds.head?, rel_head? h, rfl, rfl⟩

omit [DecidableEq σ] in
theorem rightmost_picksByPlace : (rightmost : Policy σ).PicksByPlace := by
  intro S cs ds h
  refine ⟨cs.getLast?, ds.getLast?, ?_, rfl, rfl⟩
  rw [List.getLast?_eq_head?_reverse, List.getLast?_eq_head?_reverse]
  exact rel_head? (List.rel_reverse h)

/-- Candidates that stand at the same places with the same first trees lead to the same first
trees. -/
theorem PicksByPlace.firstOfEachKind_trees (hp : p.PicksByPlace) {cs ds : List (Candidate σ)}
    (h : List.Forall₂ (fun c d => ChartParsing.firstOfEachKind c.cell.nodes =
      ChartParsing.firstOfEachKind d.cell.nodes) cs ds) :
    ChartParsing.firstOfEachKind (p cs).trees = ChartParsing.firstOfEachKind (p ds).trees := by
  obtain ⟨c, d, hcd, hcs, hds⟩ := hp h
  rw [hcs, hds]
  cases hcd with
  | none => rfl
  | some hcd => exact hcd

end Policy

namespace Grammar

variable {g : Grammar σ} {xs ys : List (Tree σ)}

/-- First trees are joined from first trees. -/
theorem firstOfEachKind_joinedTrees (g : Grammar σ) (xs ys : List (Tree σ)) :
    firstOfEachKind (g.joinedTrees xs ys) =
      firstOfEachKind (g.joinedTrees (firstOfEachKind xs) (firstOfEachKind ys)) := by
  have hkinds : ∀ x y : Tree σ,
      ((g.binaryLefts x.kind y.kind).map fun a => Tree.branch a x y).map Tree.kind =
        g.binaryLefts x.kind y.kind := by
    intro x y
    rw [List.map_map]
    exact List.map_id _
  have hrights : ∀ x : Tree σ, firstOfEachKind (ys.flatMap fun y =>
        (g.binaryLefts x.kind y.kind).map fun a => Tree.branch a x y) =
      firstOfEachKind ((firstOfEachKind ys).flatMap fun y =>
        (g.binaryLefts x.kind y.kind).map fun a => Tree.branch a x y) := by
    intro x
    refine firstOfEachKind_flatMap (fun y y' hy => ?_) ys
    rw [hkinds, hkinds, hy]
  unfold joinedTrees
  rw [firstOfEachKind_flatMap_congr fun x _ => hrights x]
  refine firstOfEachKind_flatMap (fun x x' hx => ?_) xs
  rw [List.map_flatMap, List.map_flatMap]
  refine List.flatMap_congr fun y _ => ?_
  rw [hkinds, hkinds, hx]

variable {lookup : Char → Option σ} {policy : Policy σ} {text : List Char} {i l : Nat}

/-- There is one tree of each symbol over a character. -/
theorem firstOfEachKind_characterTrees (hg : g.IsIndexed) (i : Nat) :
    firstOfEachKind (g.characterTrees lookup text i) = g.characterTrees lookup text i := by
  apply firstOfEachKind_of_nodup
  unfold characterTrees
  cases text[i]?.bind lookup with
  | none => exact List.nodup_nil
  | some t =>
    rw [List.map_map]
    exact (List.map_id (g.unitLefts t)).symm ▸ hg.nodup_unitLefts t

/-- Trees with the same first trees over the shorter spans give candidates with the same first
trees at the same places. -/
theorem forall₂_candidatesOf {trees trees' : Nat → Nat → List (Tree σ)}
    (h : ∀ j m, m < l → trees' j m = firstOfEachKind (trees j m)) :
    List.Forall₂ (fun c d => firstOfEachKind c.cell.nodes = firstOfEachKind d.cell.nodes)
      (g.candidatesOf trees i l) (g.candidatesOf trees' i l) := by
  have hsame : List.Forall₂ (fun k m => k = m ∧ k < l - 1) (List.range (l - 1))
      (List.range (l - 1)) :=
    List.forall₂_same.2 fun k hk => ⟨rfl, List.mem_range.1 hk⟩
  refine List.rel_filterMap (fun k m hkm => ?_) hsame
  obtain ⟨rfl, hk⟩ := hkm
  have hjoined := firstOfEachKind_joinedTrees g (trees i (k + 1))
    (trees (i + (k + 1)) (l - (k + 1)))
  rw [← h i (k + 1) (by omega), ← h (i + (k + 1)) (l - (k + 1)) (by omega)] at hjoined
  have hempty : (g.joinedTrees (trees i (k + 1)) (trees (i + (k + 1)) (l - (k + 1)))).isEmpty =
      (g.joinedTrees (trees' i (k + 1)) (trees' (i + (k + 1)) (l - (k + 1)))).isEmpty := by
    rw [Bool.eq_iff_iff, List.isEmpty_iff, List.isEmpty_iff, ← firstOfEachKind_eq_nil_iff, hjoined,
      firstOfEachKind_eq_nil_iff]
  rw [candidateOf?, candidateOf?, hempty]
  split
  · exact .none
  · exact .some hjoined

/-- The policy that commits first trees gives over every span the first trees. -/
theorem treesAt_firstOfEachKind (hg : g.IsIndexed) (hp : policy.PicksByPlace) (i l : Nat) :
    g.treesAt lookup policy.firstOfEachKind text i l =
      firstOfEachKind (g.treesAt lookup policy text i l) := by
  induction l using Nat.strongRecOn generalizing i with
  | _ l ih =>
    by_cases h0 : l = 0
    · rw [h0, treesAt_zero, treesAt_zero]
      rfl
    by_cases h1 : l = 1
    · rw [h1, treesAt_one, treesAt_one, firstOfEachKind_characterTrees hg]
    · rw [treesAt_of_two_le (by omega), treesAt_of_two_le (by omega),
        Policy.trees_firstOfEachKind]
      exact (hp.firstOfEachKind_trees (forall₂_candidatesOf fun j m hm => ih m hm j)).symm

/-- The cell of the recurrence has the first trees of the cell that it had before. -/
theorem cellOver?_firstOfEachKind (hg : g.IsIndexed) (hp : policy.PicksByPlace) (s : Span) :
    g.cellOver? lookup policy.firstOfEachKind text s =
      (g.cellOver? lookup policy text s).map Cell.firstOfEachKind := by
  have htrees : g.treesOver lookup policy.firstOfEachKind text s =
      firstOfEachKind (g.treesOver lookup policy text s) := treesAt_firstOfEachKind hg hp _ _
  unfold cellOver?
  rw [htrees]
  by_cases h : g.treesOver lookup policy text s = []
  · simp [h, firstOfEachKind]
  · simp [h, firstOfEachKind_eq_nil_iff, Cell.firstOfEachKind]

end Grammar

namespace Filling

variable {g : Grammar σ} {lookup : Char → Option σ} {policy : Policy σ} {text : List Char}
variable {f f' : Filling σ}

/-- A chart filled with first trees has the first trees of every cell, and the same diagnostics. -/
structure HasFirstsOf (f' f : Filling σ) : Prop where
  size : f'.chart.size = f.chart.size
  spans : f'.chart.spans = f.chart.spans
  get? : ∀ s, f'.chart.get? s = (f.chart.get? s).map Cell.firstOfEachKind
  diagnostics : f'.chart.diagnostics = f.chart.diagnostics

theorem IsFull.hasFirstsOf (hf : f.IsFull g lookup policy text)
    (hf' : f'.IsFull g lookup policy.firstOfEachKind text) (hg : g.IsIndexed)
    (hp : policy.PicksByPlace) : f'.HasFirstsOf f where
  size := hf'.size.trans hf.size.symm
  spans := by
    rw [hf'.spans_eq, hf.spans_eq]
    refine List.filter_congr fun s _ => ?_
    rw [Grammar.cellOver?_firstOfEachKind hg hp, Option.isSome_map]
  get? s := by
    by_cases hs : s ∈ Grammar.spansOf text.length
    · rw [hf'.get?_of_mem hs, hf.get?_of_mem hs, Grammar.cellOver?_firstOfEachKind hg hp]
    · rw [hf'.get?_of_not_mem hs, hf.get?_of_not_mem hs]
      rfl
  diagnostics := by
    rw [hf'.diagnostics, hf.diagnostics]
    congr 1
    refine List.filterMap_congr fun s _ => ?_
    have htrees : g.treesOver lookup policy.firstOfEachKind text s =
        firstOfEachKind (g.treesOver lookup policy text s) :=
      Grammar.treesAt_firstOfEachKind hg hp _ _
    rw [Grammar.diagnosticOver?, Grammar.diagnosticOver?, htrees]
    simp only [List.isEmpty_iff, firstOfEachKind_eq_nil_iff]

end Filling

end ChartParsing
