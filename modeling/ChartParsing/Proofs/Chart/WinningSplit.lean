import ChartParsing.Proofs.Chart.Survivors
import Mathlib.Order.Bounds.Defs

/-!
# The split that wins

The policies that take the first or the last split decide by the splits alone: of those that
give anything they take the one to which all others stand in a fixed order
(`Policy.Prefers`). The trees over a longer span are then those of one split
(`Grammar.treesAt_eq_joinedAt`), and there are trees as soon as some split joins anything
(`Grammar.exists_wins`).
-/

namespace ChartParsing

namespace Policy

variable {σ : Type} {cs : List (Candidate σ)} {c : Candidate σ}

/-- Of candidates in increasing order of their splits, the first one has the least split. -/
theorem leftmost_eq_candidate_iff (hcs : cs.Pairwise fun c d => c.split < d.split) :
    leftmost cs = .candidate c ↔ c ∈ cs ∧ ∀ d ∈ cs, c.split ≤ d.split := by
  cases cs with
  | nil => simp [leftmost, Choice.ofCandidate?]
  | cons e cs =>
    have hfirst : leftmost (e :: cs) = .candidate c ↔ e = c := by
      simp [leftmost, Choice.ofCandidate?]
    have hlt := (List.pairwise_cons.1 hcs).1
    rw [hfirst]
    constructor
    · rintro rfl
      refine ⟨List.mem_cons_self, fun d hd => ?_⟩
      rcases List.mem_cons.1 hd with rfl | hd
      · exact Int.le_refl _
      · exact Int.le_of_lt (hlt d hd)
    · rintro ⟨hc, hmin⟩
      rcases List.mem_cons.1 hc with rfl | hc
      · rfl
      · have := hlt c hc
        have := hmin e List.mem_cons_self
        omega

/-- Of the candidates of a span the policy chooses the one to whose split all others stand in
an order, whenever there is a candidate. -/
structure Prefers (p : Policy σ) (order : Int → Int → Prop) : Prop where
  decisive : p.IsDecisive
  eq_candidate_iff : ∀ cs : List (Candidate σ), cs.Pairwise (fun c d => c.split < d.split) →
    ∀ c, p cs = .candidate c ↔ c ∈ cs ∧ ∀ d ∈ cs, order d.split c.split

theorem rightmost_prefers : (rightmost : Policy σ).Prefers fun m k => m ≤ k :=
  ⟨rightmost_isDecisive, fun _ hcs _ => rightmost_eq_candidate_iff hcs⟩

theorem leftmost_prefers : (leftmost : Policy σ).Prefers fun m k => k ≤ m :=
  ⟨leftmost_isDecisive, fun _ hcs _ => leftmost_eq_candidate_iff hcs⟩

/-- The first split and the last one are each preferred by some order. -/
theorem exists_prefers {p : Policy σ} (h : p = rightmost ∨ p = leftmost) :
    ∃ order, p.Prefers order := by
  rcases h with rfl | rfl
  · exact ⟨_, rightmost_prefers⟩
  · exact ⟨_, leftmost_prefers⟩

end Policy

namespace Grammar

variable {σ : Type} [DecidableEq σ] {g : Grammar σ} {lookup : Char → Option σ}
variable {policy : Policy σ} {text : List Char} {order : Int → Int → Prop} {i l k : Nat}

/-- The splits of a span that join anything. -/
def joiningSplits (g : Grammar σ) (lookup : Char → Option σ) (policy : Policy σ)
    (text : List Char) (i l : Nat) : Set Nat :=
  {k | 0 < k ∧ k < l ∧ g.joinedAt lookup policy text i l k ≠ []}

/-- A split joins something, and all splits that do stand in an order to it. -/
structure Wins (g : Grammar σ) (lookup : Char → Option σ) (policy : Policy σ) (text : List Char)
    (order : Int → Int → Prop) (i l k : Nat) : Prop where
  joins : k ∈ g.joiningSplits lookup policy text i l
  best : ∀ m ∈ g.joiningSplits lookup policy text i l, order m k

/-- The candidate of a winning split is chosen. -/
theorem Wins.choice_eq (hp : policy.Prefers order) (h : g.Wins lookup policy text order i l k) :
    policy (g.candidatesAt lookup policy text i l) =
      .candidate ⟨k, ⟨⟨i, l⟩, g.joinedAt lookup policy text i l k⟩⟩ := by
  obtain ⟨hk, hkl, hne⟩ := h.joins
  apply (hp.eq_candidate_iff _ pairwise_candidatesAt _).2
  refine ⟨mem_candidatesAt.2 ⟨k, hk, hkl, hne, rfl⟩, fun d hd => ?_⟩
  obtain ⟨m, hm, hml, hne', rfl⟩ := mem_candidatesAt.1 hd
  exact h.best m ⟨hm, hml, hne'⟩

/-- The trees over a span are those of the winning split. -/
theorem treesAt_eq_joinedAt (hp : policy.Prefers order)
    (h : g.Wins lookup policy text order i l k) :
    g.treesAt lookup policy text i l = g.joinedAt lookup policy text i l k := by
  obtain ⟨hk, hkl, -⟩ := h.joins
  rw [treesAt_of_two_le (by omega), h.choice_eq hp]
  rfl

/-- If a split joins anything, there is one that wins. -/
theorem exists_wins (hp : policy.Prefers order)
    (h : k ∈ g.joiningSplits lookup policy text i l) :
    ∃ m, g.Wins lookup policy text order i l m := by
  obtain ⟨hk, hkl, hne⟩ := h
  have hcs : g.candidatesAt lookup policy text i l ≠ [] :=
    List.ne_nil_of_mem (mem_candidatesAt.2 ⟨k, hk, hkl, hne, rfl⟩)
  obtain ⟨c, hc, hchoice, -⟩ := hp.decisive.exists_candidate hcs
  obtain ⟨-, hbest⟩ := (hp.eq_candidate_iff _ pairwise_candidatesAt c).1 hchoice
  obtain ⟨m, hm, hml, hjoins, rfl⟩ := mem_candidatesAt.1 hc
  refine ⟨m, ⟨hm, hml, hjoins⟩, fun m' hm' => ?_⟩
  obtain ⟨hpos, hlt, hne'⟩ := hm'
  exact hbest _ (mem_candidatesAt.2 ⟨m', hpos, hlt, hne', rfl⟩)

/-- There are trees over a longer span exactly when some split wins. -/
theorem treesAt_ne_nil_iff (hp : policy.Prefers order) (hl : 2 ≤ l) :
    g.treesAt lookup policy text i l ≠ [] ↔ ∃ k, g.Wins lookup policy text order i l k := by
  constructor
  · intro hne
    obtain ⟨t, ht⟩ := List.exists_mem_of_ne_nil _ hne
    rw [treesAt_of_two_le hl] at ht
    obtain ⟨c, hc, ht⟩ :=
      hp.decisive.onlyPicks ⟨i, l⟩ _ (fun _ hc => span_of_mem_candidatesOf hc) t ht
    obtain ⟨k, hk, hkl, hjoins, -⟩ := mem_candidatesAt.1 hc
    exact exists_wins hp ⟨hk, hkl, hjoins⟩
  · rintro ⟨k, hk⟩
    rw [treesAt_eq_joinedAt hp hk]
    exact hk.joins.2.2

/-- The split that is not exceeded by any other wins if the last one is preferred. -/
theorem wins_iff_isGreatest :
    g.Wins lookup policy text (fun m k => m ≤ k) i l k ↔
      IsGreatest (g.joiningSplits lookup policy text i l) k :=
  ⟨fun h => ⟨h.joins, fun m hm => Int.ofNat_le.1 (h.best m hm)⟩,
    fun h => ⟨h.1, fun _ hm => Int.ofNat_le.2 (h.2 hm)⟩⟩

/-- The split that does not exceed any other wins if the first one is preferred. -/
theorem wins_iff_isLeast :
    g.Wins lookup policy text (fun m k => k ≤ m) i l k ↔
      IsLeast (g.joiningSplits lookup policy text i l) k :=
  ⟨fun h => ⟨h.joins, fun m hm => Int.ofNat_le.1 (h.best m hm)⟩,
    fun h => ⟨h.1, fun _ hm => Int.ofNat_le.2 (h.2 hm)⟩⟩

end Grammar

end ChartParsing
