import ChartParsing.Proofs.Chart.Contests
import ChartParsing.Proofs.Chart.WinningSplit
import ChartParsing.Proofs.Tree.Combs

/-!
# The chart of one letter

When one symbol is all that a letter is and all that two parts of the symbol make, every span of a
text of this letter has one tree of the symbol, whichever split is chosen, and all splits of the
span are candidates (`Grammar.Doubles.exists_treesAt_eq`, `Grammar.Doubles.splits_eq`). If the last
split wins the tree grows into a left comb, if the first one does it is a right comb.
-/

namespace ChartParsing

/-- Every span of a text of a size has one tree, which is of one symbol; the policy was asked about
every longer span, and each time all its splits were candidates. -/
structure Filling.IsSaturated {σ : Type} (f : Filling σ) (s : σ) (size : Nat) : Prop where
  cells : ∀ i l : Nat, 1 ≤ l → i + l ≤ size →
    ∃ x : Tree σ, x.kind = s ∧ f.chart.get? ⟨i, l⟩ = some ⟨⟨i, l⟩, [x]⟩
  contests : ∀ i l : Nat, 2 ≤ l → i + l ≤ size → ⟨i, l⟩ ∈ f.contests.map (·.span)
  splits : ∀ contest ∈ f.contests, ∀ i l : Nat, contest.span = ⟨i, l⟩ →
    contest.candidates.map (·.split) = (List.range (l - 1)).map fun k : Nat => (k : Int) + 1

namespace Grammar

variable {σ : Type} [DecidableEq σ]

/-- Only one symbol expands to a letter, and it is also the only one that expands to two of it. -/
structure Doubles (g : Grammar σ) (s t : σ) : Prop where
  unit : g.unitLefts t = [s]
  binary : g.binaryLefts s s = [s]

variable {g : Grammar σ} {lookup : Char → Option σ} {policy : Policy σ} {text : List Char}
variable {s t : σ} {i l k : Nat}

/-- The grammar with one rule of each kind doubles its symbol. -/
theorem doubles_ofDeclarations {d : Declarations σ} (hunit : d.unit = [(s, t)])
    (hbinary : d.binary = [(s, s, s)]) : (ofDeclarations d).Doubles s t where
  unit := by
    rw [unitLefts_ofDeclarations, hunit]
    exact List.filter_eq_self.2 fun a ha => by
      simpa using FirstSeen.mem_ofList.1 ha
  binary := by
    rw [binaryLefts_ofDeclarations, hbinary]
    exact List.filter_eq_self.2 fun a ha => by
      simpa using FirstSeen.mem_ofList.1 ha

namespace Doubles

variable (h : g.Doubles s t)

include h

theorem joinedTrees_eq {x y : Tree σ} (hx : x.kind = s) (hy : y.kind = s) :
    g.joinedTrees [x] [y] = [Tree.branch s x y] := by
  simp [joinedTrees, hx, hy, h.binary]

variable (hletters : ∀ c ∈ text, lookup c = some t)

include hletters

theorem characterTrees_eq (hi : i < text.length) :
    g.characterTrees lookup text i = [Tree.tooth s t i] := by
  have hlookup := hletters _ (List.getElem_mem hi)
  rw [characterTrees, List.getElem?_eq_getElem hi, Option.bind_some, hlookup]
  simp [h.unit, Tree.tooth]

section Decisive

variable (hp : policy.IsDecisive)

include hp

/-- A policy that chooses some split finds one tree over every span. -/
theorem exists_treesAt_eq (hl : 1 ≤ l) (hi : i + l ≤ text.length) :
    ∃ x, x.kind = s ∧ g.treesAt lookup policy text i l = [x] := by
  induction l using Nat.strongRecOn generalizing i with
  | _ l ih =>
    by_cases h1 : l = 1
    · subst h1
      exact ⟨_, rfl, by rw [treesAt_one, h.characterTrees_eq hletters hi]⟩
    · have hjoined : ∀ k, 0 < k → k < l →
          ∃ x, x.kind = s ∧ g.joinedAt lookup policy text i l k = [x] := by
        intro k hk hkl
        obtain ⟨x, hx, hleft⟩ := ih k hkl hk (i := i) (by omega)
        obtain ⟨y, hy, hright⟩ := ih (l - k) (by omega) (by omega) (i := i + k) (by omega)
        exact ⟨_, rfl, by rw [joinedAt, hleft, hright, h.joinedTrees_eq hx hy]⟩
      -- the first split is a candidate, so some candidate is chosen
      obtain ⟨x, -, hfirst⟩ := hjoined 1 (by omega) (by omega)
      have hne : g.joinedAt lookup policy text i l 1 ≠ [] := by simp [hfirst]
      have hcs : g.candidatesAt lookup policy text i l ≠ [] :=
        List.ne_nil_of_mem (mem_candidatesAt.2 ⟨1, by omega, by omega, hne, rfl⟩)
      obtain ⟨c, hc, -, htrees⟩ := hp.exists_candidate hcs
      obtain ⟨k, hk, hkl, -, rfl⟩ := mem_candidatesAt.1 hc
      rw [treesAt_of_two_le (by omega), htrees]
      exact hjoined k hk hkl

theorem joinedAt_ne_nil (hk : 0 < k) (hkl : k < l) (hi : i + l ≤ text.length) :
    g.joinedAt lookup policy text i l k ≠ [] := by
  obtain ⟨x, hx, hleft⟩ := h.exists_treesAt_eq hletters hp (i := i) (l := k) hk (by omega)
  obtain ⟨y, hy, hright⟩ :=
    h.exists_treesAt_eq hletters hp (i := i + k) (l := l - k) (by omega) (by omega)
  rw [joinedAt, hleft, hright, h.joinedTrees_eq hx hy]
  simp

/-- All splits of a span are candidates. -/
theorem splits_eq (hi : i + l ≤ text.length) :
    (g.candidatesAt lookup policy text i l).map (·.split) =
      (List.range (l - 1)).map fun k : Nat => (k : Int) + 1 := by
  rw [candidatesAt, candidatesOf, List.map_filterMap, ← List.filterMap_eq_map]
  refine List.filterMap_congr fun k hk => ?_
  have hkl := List.mem_range.1 hk
  have hne : g.joinedAt lookup policy text i l (k + 1) ≠ [] :=
    h.joinedAt_ne_nil hletters hp (by omega) (by omega) hi
  have hsome : g.candidateOf? (g.treesAt lookup policy text) i l (k + 1) =
      some ⟨(k + 1 : Nat), ⟨⟨i, l⟩, g.joinedAt lookup policy text i l (k + 1)⟩⟩ :=
    if_neg fun hempty => hne (List.isEmpty_iff.1 hempty)
  rw [hsome]
  rfl

/-- The chart of a text of one letter is saturated. -/
theorem isSaturated {f : Filling σ} (hf : f.IsFull g lookup policy text) :
    f.IsSaturated s text.length where
  cells i l hl hi := by
    obtain ⟨x, hx, htrees⟩ := h.exists_treesAt_eq hletters hp hl hi
    refine ⟨x, hx, ?_⟩
    rw [hf.get?_of_mem (mem_spansOf.2 ⟨i, l, hl, hi, rfl⟩), cellOver?_eq_some_iff, treesOver_mk,
      htrees]
    exact ⟨by simp, rfl⟩
  contests i l hl hi := by
    have hcontest := hf.mem_contests_iff.2 ⟨i, l, hl, hi, rfl⟩
    exact List.mem_map.2 ⟨_, hcontest, rfl⟩
  splits contest hcontest i l hspan := by
    obtain ⟨j, m, -, hi, rfl⟩ := hf.mem_contests_iff.1 hcontest
    obtain ⟨hstart, hlength⟩ := Span.mk.inj hspan
    obtain rfl := Int.ofNat_inj.1 hstart
    obtain rfl := Int.ofNat_inj.1 hlength
    exact h.splits_eq hletters hp hi

end Decisive

/-- A split beside which no other one joins anything that stands in the order wins. -/
theorem treesAt_eq_branch {order : Int → Int → Prop} (hp : policy.Prefers order) (hk : 0 < k)
    (hkl : k < l) (hi : i + l ≤ text.length) (hbest : ∀ m : Nat, 0 < m → m < l → order m k)
    {x y : Tree σ} (hleft : g.treesAt lookup policy text i k = [x])
    (hright : g.treesAt lookup policy text (i + k) (l - k) = [y]) (hx : x.kind = s)
    (hy : y.kind = s) : g.treesAt lookup policy text i l = [Tree.branch s x y] := by
  have hwins : g.Wins lookup policy text order i l k :=
    ⟨⟨hk, hkl, h.joinedAt_ne_nil hletters hp.decisive hk hkl hi⟩,
      fun m hm => hbest m hm.1 hm.2.1⟩
  rw [treesAt_eq_joinedAt hp hwins, joinedAt, hleft, hright, h.joinedTrees_eq hx hy]

/-- If the last split wins, the tree over the first characters is a left comb. -/
theorem treesAt_rightmost {n : Nat} (hn : n < text.length) :
    g.treesAt lookup .rightmost text 0 (n + 1) = [Tree.leftComb s t n] := by
  induction n with
  | zero => rw [treesAt_one, h.characterTrees_eq hletters hn, Tree.leftComb_zero]
  | succ n ih =>
    have htooth : g.treesAt lookup .rightmost text (0 + (n + 1)) (n + 1 + 1 - (n + 1)) =
        [Tree.tooth s t (n + 1)] := by
      rw [Nat.zero_add, Nat.add_sub_cancel_left, treesAt_one, h.characterTrees_eq hletters hn]
    rw [Tree.leftComb_succ]
    refine h.treesAt_eq_branch hletters Policy.rightmost_prefers (Nat.succ_pos n)
      (Nat.lt_succ_self _) (by omega) (fun m _ hm => ?_) (ih (by omega)) htooth
      (Tree.kind_leftComb n) rfl
    show (m : Int) ≤ (n + 1 : Nat)
    omega

/-- If the first split wins, the tree over the characters from a position is a right comb. -/
theorem treesAt_leftmost {n : Nat} (hn : i + n < text.length) :
    g.treesAt lookup .leftmost text i (n + 1) = [Tree.rightCombFrom s t i n] := by
  induction n generalizing i with
  | zero => rw [treesAt_one, h.characterTrees_eq hletters (i := i) hn, Tree.rightCombFrom_zero]
  | succ n ih =>
    have htooth : g.treesAt lookup .leftmost text i 1 = [Tree.tooth s t i] := by
      rw [treesAt_one, h.characterTrees_eq hletters (by omega)]
    rw [Tree.rightCombFrom_succ]
    refine h.treesAt_eq_branch hletters Policy.leftmost_prefers Nat.one_pos (by omega) (by omega)
      (fun m hm _ => ?_) htooth (ih (by omega)) rfl (Tree.kind_rightCombFrom (i + 1) n)
    show ((1 : Nat) : Int) ≤ m
    omega

end Doubles

end Grammar

end ChartParsing
