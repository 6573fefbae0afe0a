import ChartParsing.Proofs.Chart.Choices
import ChartParsing.Proofs.Grammar.NormalForm
import Mathlib.Data.List.Basic

/-!
# The trees over a span by recursion

What a chart holds can be said without a chart: `Grammar.treesAt` gives the trees over the
`l` characters from position `i` by recursion on `l`. Over one character stand the unit nodes
of its terminal, over more characters what the policy chooses among the splits that join
anything. The recursion walks over the rules themselves and uses no index of the grammar.
-/

namespace ChartParsing

namespace Grammar

variable {σ : Type} [DecidableEq σ]

/-- The trees over one character: a unit node for every left side that expands to it. -/
def characterTrees (g : Grammar σ) (lookup : Char → Option σ) (text : List Char) (i : Nat) :
    List (Tree σ) :=
  match text[i]?.bind lookup with
  | some t => (g.unitLefts t).map fun a => .unary a ⟨t, i⟩
  | none => []

/-- The binary nodes over a tree on the left and a tree on the right. -/
def joinedTrees (g : Grammar σ) (lefts rights : List (Tree σ)) : List (Tree σ) :=
  lefts.flatMap fun x => rights.flatMap fun y =>
    (g.binaryLefts x.kind y.kind).map fun a => Tree.branch a x y

/-- The candidate of a span for the length `k` of its left part, if that split joins
anything. The trees over shorter spans are given by `trees`. -/
def candidateOf? (g : Grammar σ) (trees : Nat → Nat → List (Tree σ)) (i l k : Nat) :
    Option (Candidate σ) :=
  let joined := g.joinedTrees (trees i k) (trees (i + k) (l - k))
  if joined.isEmpty then none else some ⟨k, ⟨⟨i, l⟩, joined⟩⟩

/-- The candidates of a span, in increasing order of their splits. -/
def candidatesOf (g : Grammar σ) (trees : Nat → Nat → List (Tree σ)) (i l : Nat) :
    List (Candidate σ) :=
  (List.range (l - 1)).filterMap fun k => g.candidateOf? trees i l (k + 1)

/-- The trees over the `l` characters from position `i`. -/
def treesAt (g : Grammar σ) (lookup : Char → Option σ) (policy : Policy σ) (text : List Char)
    (i l : Nat) : List (Tree σ) :=
  if l = 0 then []
  else if l = 1 then g.characterTrees lookup text i
  else
    let shorter := fun j m => if _h : m < l then g.treesAt lookup policy text j m else []
    (policy (g.candidatesOf shorter i l)).trees
termination_by l

/-- The candidates of a span, given the trees over the shorter ones. -/
def candidatesAt (g : Grammar σ) (lookup : Char → Option σ) (policy : Policy σ)
    (text : List Char) (i l : Nat) : List (Candidate σ) :=
  g.candidatesOf (g.treesAt lookup policy text) i l

/-- The trees that a split of a span joins. -/
def joinedAt (g : Grammar σ) (lookup : Char → Option σ) (policy : Policy σ) (text : List Char)
    (i l k : Nat) : List (Tree σ) :=
  g.joinedTrees (g.treesAt lookup policy text i k) (g.treesAt lookup policy text (i + k) (l - k))

section Candidates

variable {g : Grammar σ} {trees : Nat → Nat → List (Tree σ)} {i l : Nat}

theorem mem_joinedTrees {lefts rights : List (Tree σ)} {t : Tree σ} :
    t ∈ g.joinedTrees lefts rights ↔ ∃ a, ∃ x ∈ lefts, ∃ y ∈ rights,
      (x.kind, y.kind) ∈ g.binaryRules.get a ∧ t = Tree.branch a x y := by
  simp only [joinedTrees, List.mem_flatMap, List.mem_map, mem_binaryLefts]
  constructor
  · rintro ⟨x, hx, y, hy, a, ha, rfl⟩
    exact ⟨a, x, hx, y, hy, ha, rfl⟩
  · rintro ⟨a, x, hx, y, hy, ha, rfl⟩
    exact ⟨x, hx, y, hy, a, ha, rfl⟩

/-- A candidate is a split that joins something. -/
theorem mem_candidatesOf {c : Candidate σ} :
    c ∈ g.candidatesOf trees i l ↔ ∃ k, 0 < k ∧ k < l ∧
      g.joinedTrees (trees i k) (trees (i + k) (l - k)) ≠ [] ∧
      c = ⟨k, ⟨⟨i, l⟩, g.joinedTrees (trees i k) (trees (i + k) (l - k))⟩⟩ := by
  simp only [candidatesOf, candidateOf?, List.mem_filterMap, List.mem_range, List.isEmpty_iff]
  constructor
  · rintro ⟨k, hk, h⟩
    split at h
    · cases h
    · exact ⟨k + 1, by omega, by omega, ‹_›, (Option.some.inj h).symm⟩
  · rintro ⟨k, hk, hl, hne, rfl⟩
    obtain ⟨k, rfl⟩ := Nat.exists_eq_add_of_lt hk
    refine ⟨k, by omega, ?_⟩
    simp only [Nat.zero_add] at hne ⊢
    rw [if_neg hne]

theorem span_of_mem_candidatesOf {c : Candidate σ} (h : c ∈ g.candidatesOf trees i l) :
    c.cell.span = ⟨i, l⟩ := by
  obtain ⟨k, -, -, -, rfl⟩ := mem_candidatesOf.1 h
  rfl

theorem nodes_ne_nil_of_mem_candidatesOf {c : Candidate σ} (h : c ∈ g.candidatesOf trees i l) :
    c.cell.nodes ≠ [] := by
  obtain ⟨k, -, -, hne, rfl⟩ := mem_candidatesOf.1 h
  exact hne

/-- Candidates stand in strictly increasing order of their splits. -/
theorem pairwise_candidatesOf :
    (g.candidatesOf trees i l).Pairwise fun c d => c.split < d.split := by
  refine List.Pairwise.filterMap _ ?_ List.pairwise_lt_range
  intro k m hkm c hc d hd
  simp only [candidateOf?, Option.ite_none_left_eq_some, Option.some.injEq] at hc hd
  obtain ⟨-, rfl⟩ := hc
  obtain ⟨-, rfl⟩ := hd
  show ((k + 1 : Nat) : Int) < ((m + 1 : Nat) : Int)
  omega

/-- The candidates of a span depend on nothing but the trees over the shorter spans. -/
theorem candidatesOf_congr {trees' : Nat → Nat → List (Tree σ)}
    (h : ∀ j m, m < l → trees j m = trees' j m) :
    g.candidatesOf trees i l = g.candidatesOf trees' i l := by
  unfold candidatesOf
  refine List.filterMap_congr fun k hk => ?_
  have hk := List.mem_range.1 hk
  rw [candidateOf?, candidateOf?, h i (k + 1) (by omega), h (i + (k + 1)) (l - (k + 1)) (by omega)]

end Candidates

section Trees

variable {g : Grammar σ} {lookup : Char → Option σ} {policy : Policy σ} {text : List Char}
variable {i l : Nat}

theorem mem_candidatesAt {c : Candidate σ} : c ∈ g.candidatesAt lookup policy text i l ↔
    ∃ k, 0 < k ∧ k < l ∧ g.joinedAt lookup policy text i l k ≠ [] ∧
      c = ⟨k, ⟨⟨i, l⟩, g.joinedAt lookup policy text i l k⟩⟩ :=
  mem_candidatesOf

theorem pairwise_candidatesAt :
    (g.candidatesAt lookup policy text i l).Pairwise fun c d => c.split < d.split :=
  pairwise_candidatesOf

@[simp] theorem treesAt_zero : g.treesAt lookup policy text i 0 = [] := by
  rw [treesAt, if_pos rfl]

@[simp] theorem treesAt_one :
    g.treesAt lookup policy text i 1 = g.characterTrees lookup text i := by
  rw [treesAt, if_neg (by omega), if_pos rfl]

theorem treesAt_of_two_le (h : 2 ≤ l) : g.treesAt lookup policy text i l =
    (policy (g.candidatesAt lookup policy text i l)).trees := by
  rw [treesAt, if_neg (by omega), if_neg (by omega)]
  have hc : g.candidatesOf
      (fun j m => if _h : m < l then g.treesAt lookup policy text j m else []) i l =
        g.candidatesAt lookup policy text i l :=
    candidatesOf_congr fun j m hm => by rw [dif_pos hm]
  show (policy (g.candidatesOf _ i l)).trees = _
  rw [hc]

theorem mem_characterTrees {t : Tree σ} : t ∈ g.characterTrees lookup text i ↔
    ∃ a s c, text[i]? = some c ∧ lookup c = some s ∧ s ∈ g.unitRules.get a ∧
      t = .unary a ⟨s, i⟩ := by
  unfold characterTrees
  cases hc : text[i]? with
  | none => simp
  | some c =>
    cases hs : lookup c with
    | none => simp [hs]
    | some s =>
      simp only [Option.bind_some, hs, List.mem_map, mem_unitLefts, Option.some.injEq]
      constructor
      · rintro ⟨a, ha, rfl⟩
        exact ⟨a, s, c, rfl, hs, ha, rfl⟩
      · rintro ⟨a, s', c', rfl, hs', ha, rfl⟩
        rw [hs, Option.some.injEq] at hs'
        exact ⟨a, hs' ▸ ha, by rw [hs']⟩

/-- A tree over more than one character, when the policy invents none, joins two trees over
the parts of a split. -/
theorem exists_join_of_mem_treesAt (hp : policy.OnlyPicks) (hl : 2 ≤ l) {t : Tree σ}
    (ht : t ∈ g.treesAt lookup policy text i l) :
    ∃ k, 0 < k ∧ k < l ∧ ∃ a, ∃ x ∈ g.treesAt lookup policy text i k,
      ∃ y ∈ g.treesAt lookup policy text (i + k) (l - k),
        (x.kind, y.kind) ∈ g.binaryRules.get a ∧ t = Tree.branch a x y := by
  rw [treesAt_of_two_le hl] at ht
  obtain ⟨c, hc, ht⟩ := hp ⟨i, l⟩ _ (fun c hc => span_of_mem_candidatesOf hc) t ht
  obtain ⟨k, hk, hkl, -, rfl⟩ := mem_candidatesOf.1 hc
  exact ⟨k, hk, hkl, mem_joinedTrees.1 ht⟩

/-- The symbol of a tree that a policy picks is the left side of a rule. -/
theorem exists_rule_of_mem_treesAt (hp : policy.OnlyPicks) {t : Tree σ}
    (ht : t ∈ g.treesAt lookup policy text i l) :
    (∃ x, x ∈ g.unitRules.get t.kind) ∨ ∃ p, p ∈ g.binaryRules.get t.kind := by
  by_cases h0 : l = 0
  · subst h0
    rw [treesAt_zero] at ht
    cases ht
  by_cases h1 : l = 1
  · subst h1
    rw [treesAt_one] at ht
    obtain ⟨a, x, -, -, -, hx, rfl⟩ := mem_characterTrees.1 ht
    exact .inl ⟨x, hx⟩
  · obtain ⟨-, -, -, a, x, -, y, -, hrule, rfl⟩ := exists_join_of_mem_treesAt hp (by omega) ht
    exact .inr ⟨_, hrule⟩

/-- In a sound grammar it is a nonterminal. -/
theorem IsSound.kind_mem (hg : g.IsSound) (hp : policy.OnlyPicks) {t : Tree σ}
    (ht : t ∈ g.treesAt lookup policy text i l) : t.kind ∈ g.nonterminals := by
  rcases exists_rule_of_mem_treesAt hp ht with ⟨x, hx⟩ | ⟨p, hp⟩
  · exact hg.unit_left _ (Groups.mem_keys_of_mem_get hx)
  · exact hg.binary_left _ (Groups.mem_keys_of_mem_get hp)

theorem followedBy_parts {k : Nat} (h : k ≤ l) :
    (⟨i, k⟩ : Span).followedBy ⟨(i + k : Nat), (l - k : Nat)⟩ = ⟨i, l⟩ := by
  simp only [Span.followedBy, Span.mk.injEq, true_and]
  omega

/-- A candidate whose parts cover the two parts of a split covers the span. -/
theorem covers_of_mem_candidatesOf {trees : Nat → Nat → List (Tree σ)} {c : Candidate σ}
    (hs : ∀ j m, m < l → ∀ t ∈ trees j m, t.span = ⟨j, m⟩)
    (hc : c ∈ g.candidatesOf trees i l) : c.cell.Covers ⟨i, l⟩ := by
  obtain ⟨k, hk, hkl, -, rfl⟩ := mem_candidatesOf.1 hc
  refine ⟨rfl, fun t ht => ?_⟩
  obtain ⟨a, x, hx, y, hy, -, rfl⟩ := mem_joinedTrees.1 ht
  show x.span.followedBy y.span = ⟨i, l⟩
  rw [hs i k hkl x hx, hs (i + k) (l - k) (by omega) y hy, followedBy_parts (by omega)]

/-- Every tree covers the span that it is listed for. -/
theorem span_of_mem_treesAt (hp : policy.StaysOver) {t : Tree σ}
    (ht : t ∈ g.treesAt lookup policy text i l) : t.span = ⟨i, l⟩ := by
  induction l using Nat.strongRecOn generalizing i t with
  | _ l ih =>
    by_cases h0 : l = 0
    · subst h0
      simp at ht
    by_cases h1 : l = 1
    · subst h1
      rw [treesAt_one] at ht
      obtain ⟨a, s, c, -, -, -, rfl⟩ := mem_characterTrees.1 ht
      rfl
    · rw [treesAt_of_two_le (by omega)] at ht
      have hover : ∀ c ∈ g.candidatesAt lookup policy text i l, c.cell.Covers ⟨i, l⟩ :=
        fun c hc => covers_of_mem_candidatesOf (fun j m hm u hu => ih m hm hu) hc
      unfold Choice.trees at ht
      cases hcell : (policy (g.candidatesAt lookup policy text i l)).cell? with
      | none => simp [hcell] at ht
      | some cell =>
        rw [hcell] at ht
        exact (hp _ _ hover cell hcell (List.ne_nil_of_mem ht)).2 t ht

theorem covers_of_mem_candidatesAt (hp : policy.StaysOver) {c : Candidate σ}
    (hc : c ∈ g.candidatesAt lookup policy text i l) : c.cell.Covers ⟨i, l⟩ :=
  covers_of_mem_candidatesOf (fun _ _ _ _ ht => span_of_mem_treesAt hp ht) hc

end Trees

end Grammar

end ChartParsing
