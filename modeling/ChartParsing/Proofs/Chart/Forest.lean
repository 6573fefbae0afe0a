import ChartParsing.Proofs.Chart.Derivations
import Mathlib.Data.List.Nodup

/-!
# Keeping all candidates lists all parse trees

With a policy that keeps the trees of all candidates, the recurrence lists the parse trees
over every span of the text (`mem_treesAt_iff_isParse`), each of them once
(`nodup_treesAt`): a tree tells its rule, its parts and, by the length of its left part, the
candidate that it comes from.
-/

namespace ChartParsing

variable {σ : Type}

namespace Policy

theorem merge_keepsAll : (merge : Policy σ).KeepsAll where
  cell_eq span cs hcs hover := by
    cases cs with
    | nil => exact absurd rfl hcs
    | cons c cs =>
      rw [merge, Choice.cell?, hover c List.mem_cons_self]
  trees_nil := rfl

end Policy

/-- A binary node tells its symbol and its parts. -/
theorem Tree.branch_inj {a b : σ} {x x' y y' : Tree σ} (h : branch a x y = branch b x' y') :
    a = b ∧ x = x' ∧ y = y' := by
  simp only [branch, binary.injEq] at h
  exact ⟨h.1, h.2.2⟩

namespace Grammar

variable [DecidableEq σ] {g : Grammar σ} {lookup : Char → Option σ}
variable {spells : σ → Char → Prop} {policy : Policy σ} {text : List Char} {i l : Nat}

theorem treesAt_of_keepsAll (hp : policy.KeepsAll) (hl : 2 ≤ l) :
    g.treesAt lookup policy text i l =
      (g.candidatesAt lookup policy text i l).flatMap (·.cell.nodes) := by
  rw [treesAt_of_two_le hl]
  exact hp.trees_eq fun c hc => span_of_mem_candidatesOf hc

/-- All parse trees over a span are listed. -/
theorem mem_treesAt_of_isParse (hr : g.Reads lookup spells) (hp : policy.KeepsAll) {t : Tree σ}
    (ht : t.IsParse g spells text) (hs : t.span = ⟨i, l⟩) :
    t ∈ g.treesAt lookup policy text i l := by
  induction l using Nat.strongRecOn generalizing i t with
  | _ l ih =>
    by_cases h1 : l = 1
    · subst h1
      rw [treesAt_one]
      exact (mem_characterTrees_iff_isParse hr).2 ⟨ht, hs⟩
    · cases t with
      | leaf m => exact ht.elim
      | unary a child =>
        have hlen : (1 : Int) = l := congrArg Span.length hs
        omega
      | binary a s left right =>
        obtain ⟨k, hk, hkl, hleft, hright⟩ := ht.exists_parts hs
        obtain ⟨hrule, htiles, hl, hr⟩ := ht
        have hx := ih k hkl hl hleft
        have hy := ih (l - k) (by omega) hr hright
        have hjoined : Tree.binary a s left right ∈ g.joinedAt lookup policy text i l k := by
          apply mem_joinedTrees.2
          refine ⟨a, left, hx, right, hy, hrule, ?_⟩
          rw [Tree.branch, htiles.span_eq]
        rw [treesAt_of_keepsAll hp (by omega), List.mem_flatMap]
        exact ⟨_, mem_candidatesAt.2 ⟨k, hk, hkl, List.ne_nil_of_mem hjoined, rfl⟩, hjoined⟩

/-- The trees listed over a span are its parse trees. -/
theorem mem_treesAt_iff_isParse (hr : g.Reads lookup spells) (hp : policy.KeepsAll)
    {t : Tree σ} : t ∈ g.treesAt lookup policy text i l ↔
      t.IsParse g spells text ∧ t.span = ⟨i, l⟩ :=
  ⟨isParse_of_mem_treesAt hr hp.onlyPicks, fun h => mem_treesAt_of_isParse hr hp h.1 h.2⟩

/-- The symbols of the trees that are listed over a span are those that derive it. -/
theorem isExactOver_of_keepsAll (hr : g.Reads lookup spells) (hp : policy.KeepsAll)
    (hi : i + l ≤ text.length) : g.IsExactOver lookup spells policy text i l := by
  intro a
  rw [derivesText_iff_exists_isParse hi]
  constructor
  · rintro ⟨t, ht, hkind⟩
    obtain ⟨hparse, hspan⟩ := (mem_treesAt_iff_isParse hr hp).1 ht
    exact ⟨t, hparse, hkind, hspan⟩
  · rintro ⟨t, hparse, hkind, hspan⟩
    exact ⟨t, (mem_treesAt_iff_isParse hr hp).2 ⟨hparse, hspan⟩, hkind⟩

theorem nodup_characterTrees (hg : g.IsIndexed) : (g.characterTrees lookup text i).Nodup := by
  unfold characterTrees
  cases text[i]?.bind lookup with
  | none => exact List.nodup_nil
  | some s =>
    apply (hg.nodup_unitLefts s).map
    intro a b h
    cases h
    rfl

/-- Different trees, or different rules, are joined to different trees. -/
theorem nodup_joinedTrees (hg : g.IsIndexed) {lefts rights : List (Tree σ)}
    (hl : lefts.Nodup) (hr : rights.Nodup) : (g.joinedTrees lefts rights).Nodup := by
  have hpairs : ∀ x y : Tree σ,
      ((g.binaryLefts x.kind y.kind).map fun a => Tree.branch a x y).Nodup := by
    intro x y
    apply (hg.nodup_binaryLefts x.kind y.kind).map
    intro a b h
    exact (Tree.branch_inj h).1
  unfold joinedTrees
  rw [List.nodup_flatMap]
  constructor
  · intro x hx
    rw [List.nodup_flatMap]
    refine ⟨fun y hy => hpairs x y, hr.imp ?_⟩
    intro y y' hne t ht ht'
    obtain ⟨a, -, rfl⟩ := List.mem_map.1 ht
    obtain ⟨b, -, he⟩ := List.mem_map.1 ht'
    exact hne (Tree.branch_inj he).2.2.symm
  · refine hl.imp ?_
    intro x x' hne t ht ht'
    obtain ⟨y, -, ht⟩ := List.mem_flatMap.1 ht
    obtain ⟨a, -, rfl⟩ := List.mem_map.1 ht
    obtain ⟨y', -, ht'⟩ := List.mem_flatMap.1 ht'
    obtain ⟨b, -, he⟩ := List.mem_map.1 ht'
    exact hne (Tree.branch_inj he).2.1.symm

/-- No tree is listed twice over a span. -/
theorem nodup_treesAt (hr : g.Reads lookup spells) (hp : policy.KeepsAll) :
    (g.treesAt lookup policy text i l).Nodup := by
  induction l using Nat.strongRecOn generalizing i with
  | _ l ih =>
    by_cases h0 : l = 0
    · subst h0
      rw [treesAt_zero]
      exact List.nodup_nil
    by_cases h1 : l = 1
    · subst h1
      rw [treesAt_one]
      exact nodup_characterTrees hr.isIndexed
    · rw [treesAt_of_keepsAll hp (by omega), List.nodup_flatMap]
      constructor
      · intro c hc
        obtain ⟨k, hk, hkl, -, rfl⟩ := mem_candidatesAt.1 hc
        exact nodup_joinedTrees hr.isIndexed (ih k hkl) (ih (l - k) (by omega))
      · -- a tree of a candidate has a left part as long as the candidate's split
        have hleft : ∀ c ∈ g.candidatesAt lookup policy text i l, ∀ t ∈ c.cell.nodes,
            ∃ a s left right, t = Tree.binary a s left right ∧ left.span.length = c.split := by
          intro c hc t ht
          obtain ⟨k, -, -, -, rfl⟩ := mem_candidatesAt.1 hc
          obtain ⟨a, x, hx, y, -, -, rfl⟩ := mem_joinedTrees.1 ht
          refine ⟨a, _, x, y, rfl, ?_⟩
          rw [(isParse_of_mem_treesAt hr hp.onlyPicks hx).2]
        refine pairwise_candidatesAt.imp_of_mem ?_
        intro c d hc hd hlt t ht ht'
        obtain ⟨a, s, x, y, rfl, hx⟩ := hleft c hc t ht
        obtain ⟨b, s', x', y', he, hx'⟩ := hleft d hd _ ht'
        cases he
        omega

end Grammar

end ChartParsing
