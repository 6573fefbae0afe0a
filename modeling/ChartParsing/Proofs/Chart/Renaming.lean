import ChartParsing.Proofs.Chart.Derivations
import ChartParsing.Proofs.Grammar.Renaming
import ChartParsing.Proofs.Tree.Renaming

/-!
# Charts over related symbols

Grammars with related left sides that look characters up alike find related trees over every span
of a text (`Grammar.LeftsRelated.treesAt`). So the charts that they fill have the same spans in
the same order with related cells, and what is remarked and told on the way is the same
(`Grammar.LeftsRelated.filling`).
-/

namespace ChartParsing

open List

variable {α β : Type} {R : α → β → Prop}

/-- Charts of one size with the same diagnostics and with related cells over the same spans, in
the same order. -/
structure Chart.Related (R : α → β → Prop) (a : Chart (Cell α)) (b : Chart (Cell β)) : Prop where
  size : a.size = b.size
  entries : Forall₂ (fun e e' => e.1 = e'.1 ∧ e.2.Related R e'.2) a.entries b.entries
  diagnostics : a.diagnostics = b.diagnostics

/-- Related entries have related cells first for a span, or none. -/
theorem Chart.rel_entryOf {es : List (Span × Cell α)} {es' : List (Span × Cell β)}
    (h : Forall₂ (fun e e' => e.1 = e'.1 ∧ e.2.Related R e'.2) es es') (span : Span) :
    Option.Rel (Cell.Related R) (entryOf span es) (entryOf span es') := by
  induction h with
  | nil => exact .none
  | cons he _ ih =>
    obtain ⟨hspan, hcell⟩ := he
    rw [entryOf, entryOf, hspan]
    split
    · exact .some hcell
    · exact ih

/-- Related charts have related cells over a span, or none. -/
theorem Chart.Related.get? {a : Chart (Cell α)} {b : Chart (Cell β)} (h : a.Related R b)
    (span : Span) : Option.Rel (Cell.Related R) (a.get? span) (b.get? span) := by
  have hlatest := rel_reverse h.entries
  rw [Chart.entries, Chart.entries, reverse_reverse, reverse_reverse] at hlatest
  rw [Chart.get?, Chart.get?, a.get?_index, b.get?_index]
  exact rel_entryOf hlatest span

theorem Chart.Related.top? {a : Chart (Cell α)} {b : Chart (Cell β)} (h : a.Related R b) :
    Option.Rel (Cell.Related R) a.top? b.top? := by
  rw [Chart.top?, Chart.top?, h.size]
  split
  · exact .none
  · exact h.get? _

/-- Contests for one span between related candidates, with related choices. -/
structure Contest.Related (R : α → β → Prop) (c : Contest α) (d : Contest β) : Prop where
  span : c.span = d.span
  candidates : Forall₂ (Candidate.Related R) c.candidates d.candidates
  choice : c.choice.Related R d.choice

/-- Related charts, filled with related contests in the same order, and the same log. -/
structure Filling.Related (R : α → β → Prop) (f : Filling α) (f' : Filling β) : Prop where
  chart : f.chart.Related R f'.chart
  contests : Forall₂ (Contest.Related R) f.contests f'.contests
  log : f.log = f'.log

theorem Choice.Related.trees {c : Choice α} {d : Choice β} (h : c.Related R d) :
    Forall₂ (Tree.Related R) c.trees d.trees := by
  cases h with
  | nothing => exact .nil
  | candidate h => exact h.cell.nodes
  | made h => exact h.nodes

/-- What is told of a contest does not depend on its symbols. -/
theorem Contest.Related.contestLog_eq {c : Contest α} {d : Contest β} (h : c.Related R d) :
    Filling.contestLog c = Filling.contestLog d := by
  have hsplits : c.candidates.map (·.split) = d.candidates.map (·.split) := by
    rw [← forall₂_eq_eq_eq]
    exact rel_map (fun _ _ hc => hc.split) h.candidates
  rw [Filling.contestLog, Filling.contestLog, h.candidates.length_eq, h.span, hsplits,
    h.choice.split?_eq]

variable [DecidableEq α] [DecidableEq β]

/-- Related charts give related trees of related symbols over the whole text. -/
theorem Chart.Related.bind_lookup (hR : Relator.BiUnique R) {a : Chart (Cell α)}
    {b : Chart (Cell β)} (h : a.Related R b) {x : α} {y : β} (hxy : R x y) :
    Option.Rel (Tree.Related R) (a.top?.bind (·.lookup x)) (b.top?.bind (·.lookup y)) := by
  have htop := h.top?
  generalize a.top? = cell at htop ⊢
  generalize b.top? = cell' at htop ⊢
  cases htop with
  | none => exact .none
  | some hcell =>
    refine rel_find? (fun t u htu => decide_eq_decide.2 ⟨fun e => ?_, fun e => ?_⟩) hcell.nodes
    · exact hR.2 htu.kind (e ▸ hxy)
    · exact hR.1 htu.kind (e ▸ hxy)

theorem Chart.Related.accepts_eq (hR : Relator.BiUnique R) {a : Chart (Cell α)}
    {b : Chart (Cell β)} (h : a.Related R b) {x : α} {y : β} (hxy : R x y) :
    a.accepts x = b.accepts y := by
  rw [accepts_eq_isSome, accepts_eq_isSome, isSome_eq_of_rel (h.bind_lookup hR hxy)]

/-- A character is looked up as related symbols, or as symbols that no rule expands to. -/
def Grammar.LookUpAlike (R : α → β → Prop) (g : Grammar α) (h : Grammar β)
    (lookup : Char → Option α) (lookup' : Char → Option β) : Prop :=
  ∀ c, (∃ x y, lookup c = some x ∧ lookup' c = some y ∧ R x y) ∨
    (∀ x, lookup c = some x → g.unitLefts x = []) ∧ ∀ y, lookup' c = some y → h.unitLefts y = []

/-- Over a character whose symbol no rule expands to stand no trees. -/
theorem Grammar.characterTrees_eq_nil {g : Grammar α} {lookup : Char → Option α}
    {text : List Char} {i : Nat} {c : Char} (hc : text[i]? = some c)
    (h : ∀ x, lookup c = some x → g.unitLefts x = []) : g.characterTrees lookup text i = [] := by
  unfold characterTrees
  rw [hc, Option.bind_some]
  cases hx : lookup c with
  | none => rfl
  | some x => simp [h x hx]

namespace Grammar.LeftsRelated

variable {g : Grammar α} {h : Grammar β} (hg : g.LeftsRelated R h)

include hg

theorem joinedTrees {xs ys : List (Tree α)} {xs' ys' : List (Tree β)}
    (hx : Forall₂ (Tree.Related R) xs xs') (hy : Forall₂ (Tree.Related R) ys ys') :
    Forall₂ (Tree.Related R) (g.joinedTrees xs ys) (h.joinedTrees xs' ys') := by
  refine rel_flatMap hx fun x x' hx => rel_flatMap hy fun y y' hy => ?_
  exact rel_map (fun _ _ hab => .branch hab hx hy) (hg.binaryLefts hx.kind hy.kind)

/-- Related trees over the shorter spans give related candidates. -/
theorem candidatesOf {trees : Nat → Nat → List (Tree α)} {trees' : Nat → Nat → List (Tree β)}
    {i l : Nat} (htrees : ∀ j m, m < l → Forall₂ (Tree.Related R) (trees j m) (trees' j m)) :
    Forall₂ (Candidate.Related R) (g.candidatesOf trees i l) (h.candidatesOf trees' i l) := by
  have hsame : Forall₂ (fun k m => k = m ∧ k < l - 1) (range (l - 1)) (range (l - 1)) :=
    forall₂_same.2 fun k hk => ⟨rfl, mem_range.1 hk⟩
  refine rel_filterMap (fun k m hkm => ?_) hsame
  obtain ⟨rfl, hk⟩ := hkm
  have hjoined := hg.joinedTrees (htrees i (k + 1) (by omega))
    (htrees (i + (k + 1)) (l - (k + 1)) (by omega))
  rw [candidateOf?, candidateOf?]
  rw [isEmpty_eq_of_forall₂ hjoined]
  split
  · exact .none
  · exact .some ⟨rfl, rfl, hjoined⟩

variable {lookup : Char → Option α} {lookup' : Char → Option β}
variable (hlookup : LookUpAlike R g h lookup lookup') (text : List Char)

include hlookup

theorem characterTrees (i : Nat) : Forall₂ (Tree.Related R) (g.characterTrees lookup text i)
    (h.characterTrees lookup' text i) := by
  cases hc : text[i]? with
  | none =>
    rw [Grammar.characterTrees, Grammar.characterTrees, hc]
    exact .nil
  | some c =>
    rcases hlookup c with ⟨x, y, hx, hy, hxy⟩ | ⟨hx, hy⟩
    · rw [Grammar.characterTrees, Grammar.characterTrees, hc, Option.bind_some, Option.bind_some,
        hx, hy]
      exact rel_map (fun _ _ hab => .unary hab hxy) (hg.unitLefts hxy)
    · rw [characterTrees_eq_nil hc hx, characterTrees_eq_nil hc hy]
      exact .nil

variable {p : Policy α} {q : Policy β} (hp : Policy.Related R p q)

include hp

/-- Related trees stand over every span of a text. -/
theorem treesAt (i l : Nat) : Forall₂ (Tree.Related R) (g.treesAt lookup p text i l)
    (h.treesAt lookup' q text i l) := by
  induction l using Nat.strongRecOn generalizing i with
  | _ l ih =>
    by_cases h0 : l = 0
    · rw [h0, treesAt_zero, treesAt_zero]
      exact .nil
    by_cases h1 : l = 1
    · rw [h1, treesAt_one, treesAt_one]
      exact hg.characterTrees hlookup text i
    · rw [treesAt_of_two_le (by omega), treesAt_of_two_le (by omega)]
      exact (hp (hg.candidatesOf fun j m hm => ih m hm j)).trees

theorem contestOver (s : Span) : (g.contestOver lookup p text s).Related R
    (h.contestOver lookup' q text s) := by
  have hcandidates := hg.candidatesOf (i := s.start.toNat) (l := s.length.toNat)
    fun j m _ => hg.treesAt hlookup text hp j m
  exact ⟨rfl, hcandidates, hp hcandidates⟩

/-- The fillings of a text hold related things in the same order. -/
theorem filling {f : Filling α} {f' : Filling β} (hf : f.IsFull g lookup p text)
    (hf' : f'.IsFull h lookup' q text) : f.Related R f' := by
  have hspans : Forall₂ (fun s s' : Span => s = s') (spansOf text.length) (spansOf text.length) :=
    forall₂_same.2 fun _ _ => rfl
  have htrees : ∀ s, Forall₂ (Tree.Related R) (g.treesOver lookup p text s)
      (h.treesOver lookup' q text s) := fun s => hg.treesAt hlookup text hp _ _
  have hempty := fun s => isEmpty_eq_of_forall₂ (htrees s)
  refine ⟨⟨hf.size.trans hf'.size.symm, ?_, ?_⟩, ?_, ?_⟩
  · rw [hf.entries, hf'.entries]
    refine rel_filterMap (fun s s' hs => ?_) hspans
    subst hs
    rw [cellOver?, cellOver?, ← hempty s]
    split
    · exact .none
    · exact .some ⟨rfl, rfl, htrees s⟩
  · have hsame : g.diagnosticOver? lookup p text = h.diagnosticOver? lookup' q text := by
      funext s
      rw [diagnosticOver?, diagnosticOver?, hempty s]
    rw [hf.diagnostics, hf'.diagnostics, hsame]
  · rw [hf.contests, hf'.contests]
    refine rel_filterMap (fun s s' hs => ?_) hspans
    subst hs
    unfold contestOver?
    split
    · exact .none
    · exact .some (hg.contestOver hlookup text hp s)
  · have hsame : g.logOver? lookup p text = h.logOver? lookup' q text := by
      funext s
      rw [logOver?, logOver?, hempty s, (hg.contestOver hlookup text hp s).contestLog_eq]
    rw [hf.log, hf'.log, hsame]

end Grammar.LeftsRelated

end ChartParsing
