import ChartParsing.Proofs.Chart.FirstOfKind
import ChartParsing.Proofs.Chart.WinningSplit
import ChartParsing.Proofs.Tree.Shift
import ChartParsing.Proofs.Tree.Traversal

/-!
# The trees over a span do not depend on what is around it

With a policy that goes by the splits alone, the trees over a span are decided by the characters
that it covers: a part of a text has the trees that the text has over the same characters, but for
where they stand (`Grammar.treesAt_slice`). And every tree that is the first of its symbol over its
span is joined from trees that are the first of theirs (`Grammar.IsFirst.exists_parts`), down to
the characters (`Grammar.IsFirst.of_mem_nodes`).
-/

namespace ChartParsing

variable {σ : Type} [DecidableEq σ]

/-- A tree is among the first ones exactly when it is found as the first one of its symbol. -/
theorem mem_firstOfEachKind_iff {ts : List (Tree σ)} {t : Tree σ} : t ∈ firstOfEachKind ts ↔
    ts.find? (fun u => decide (u.kind = t.kind)) = some t := by
  constructor
  · intro h
    induction ts with
    | nil => cases h
    | cons u ts ih =>
      rcases List.mem_cons.1 h with rfl | h
      · rw [List.find?_cons_of_pos (by simp)]
      · obtain ⟨ht, hkind⟩ := List.mem_filter.1 h
        have hne : u.kind ≠ t.kind := Ne.symm (of_decide_eq_true hkind)
        rw [List.find?_cons_of_neg (by simpa using hne), ih ht]
  · intro h
    rw [← find?_firstOfEachKind] at h
    exact List.mem_of_find?_eq_some h

namespace Grammar

variable {g : Grammar σ} {lookup : Char → Option σ} {policy : Policy σ} {text : List Char}
variable {order : Int → Int → Prop} {i j k l n : Nat}

/-- Trees are shifted before they are joined or after. -/
theorem joinedTrees_shift (d : Int) (xs ys : List (Tree σ)) :
    g.joinedTrees (xs.map (Tree.shift d)) (ys.map (Tree.shift d)) =
      (g.joinedTrees xs ys).map (Tree.shift d) := by
  unfold joinedTrees
  rw [List.flatMap_map, List.map_flatMap]
  refine List.flatMap_congr fun x _ => ?_
  rw [List.flatMap_map, List.map_flatMap]
  refine List.flatMap_congr fun y _ => ?_
  simp only [Tree.kind_shift, List.map_map, Function.comp_def, Tree.branch_shift]

/-! ### Parts of a text -/

theorem getElem?_slice (h : j < n) : (slice text i n)[j]? = text[i + j]? := by
  rw [slice, List.getElem?_take_of_lt h, List.getElem?_drop]

theorem characterTrees_slice (h : j < n) : g.characterTrees lookup (slice text i n) j =
    (g.characterTrees lookup text (i + j)).map (Tree.shift (-i)) := by
  unfold characterTrees
  rw [getElem?_slice h]
  cases text[i + j]?.bind lookup with
  | none => rfl
  | some t =>
    have hposition : ((i + j : Nat) : Int) + -(i : Int) = j := by omega
    simp only [List.map_map, Function.comp_def, Tree.shift, Leaf.shift, hposition]

/-- Spans whose splits join something alike have the same winning split. -/
theorem Wins.congr {text' : List Char} (h : g.Wins lookup policy text order i l k)
    (hsplits : g.joiningSplits lookup policy text' j l = g.joiningSplits lookup policy text i l) :
    g.Wins lookup policy text' order j l k :=
  ⟨hsplits ▸ h.joins, fun m hm => h.best m (hsplits ▸ hm)⟩

/-- Over the same characters a part of a text has the trees of the text, shifted to where they
stand in the part. -/
theorem treesAt_slice (hp : policy.Prefers order) (h : j + l ≤ n) :
    g.treesAt lookup policy (slice text i n) j l =
      (g.treesAt lookup policy text (i + j) l).map (Tree.shift (-i)) := by
  induction l using Nat.strongRecOn generalizing j with
  | _ l ih =>
    by_cases h0 : l = 0
    · rw [h0, treesAt_zero, treesAt_zero, List.map_nil]
    by_cases h1 : l = 1
    · rw [h1, treesAt_one, treesAt_one, characterTrees_slice (by omega)]
    have hl : 2 ≤ l := by omega
    -- the same splits join something, so the same split wins
    have hjoined : ∀ k, 0 < k → k < l → g.joinedAt lookup policy (slice text i n) j l k =
        (g.joinedAt lookup policy text (i + j) l k).map (Tree.shift (-i)) := by
      intro k hk hkl
      rw [joinedAt, joinedAt, ih k hkl (by omega), ih (l - k) (by omega) (by omega),
        joinedTrees_shift, Nat.add_assoc]
    have hsplits : g.joiningSplits lookup policy (slice text i n) j l =
        g.joiningSplits lookup policy text (i + j) l := by
      ext k
      refine and_congr_right fun hk => and_congr_right fun hkl => ?_
      rw [hjoined k hk hkl, Ne, List.map_eq_nil_iff]
    by_cases hnil : g.treesAt lookup policy text (i + j) l = []
    · rw [hnil, List.map_nil]
      apply Decidable.byContradiction
      intro hne
      obtain ⟨k, hk⟩ := (treesAt_ne_nil_iff hp hl).1 hne
      exact (treesAt_ne_nil_iff hp hl).2 ⟨k, hk.congr hsplits.symm⟩ hnil
    · obtain ⟨k, hk⟩ := (treesAt_ne_nil_iff hp hl).1 hnil
      rw [treesAt_eq_joinedAt hp hk, treesAt_eq_joinedAt hp (hk.congr hsplits),
        hjoined k hk.joins.1 hk.joins.2.1]

/-- The cell over a part of a text is the one that the text has over the same characters. -/
theorem cellOver?_slice (hp : policy.Prefers order) (text : List Char) (i l : Nat) :
    g.cellOver? lookup policy (slice text i l) ⟨(0 : Nat), l⟩ =
      (g.cellOver? lookup policy text ⟨i, l⟩).map (Cell.shift (-i)) := by
  have htrees : g.treesOver lookup policy (slice text i l) ⟨(0 : Nat), l⟩ =
      (g.treesOver lookup policy text ⟨i, l⟩).map (Tree.shift (-i)) := by
    rw [treesOver_mk, treesOver_mk, treesAt_slice hp (by omega), Nat.add_zero]
  have hspan : (⟨i, l⟩ : Span).shift (-i) = ⟨(0 : Nat), l⟩ := by
    simp only [Span.shift, Span.mk.injEq, and_true]
    omega
  rw [cellOver?, cellOver?, htrees, List.isEmpty_map]
  split
  · rfl
  · rw [Option.map_some, Cell.shift, hspan]

/-! ### First trees -/

/-- A tree is the first one of its symbol over a span. -/
def IsFirst (g : Grammar σ) (lookup : Char → Option σ) (policy : Policy σ) (text : List Char)
    (i l : Nat) (t : Tree σ) : Prop :=
  (g.treesAt lookup policy text i l).find? (fun u => decide (u.kind = t.kind)) = some t

variable {t x : Tree σ}

theorem IsFirst.mem (h : g.IsFirst lookup policy text i l t) :
    t ∈ g.treesAt lookup policy text i l :=
  List.mem_of_find?_eq_some h

theorem IsFirst.pos (h : g.IsFirst lookup policy text i l t) : 0 < l := by
  apply Nat.pos_of_ne_zero
  rintro rfl
  have := h.mem
  rw [treesAt_zero] at this
  cases this

/-- A first tree over a character is a unit node. -/
theorem IsFirst.exists_character (h : g.IsFirst lookup policy text i 1 t) :
    ∃ a s, t = .unary a ⟨s, i⟩ := by
  have ht := h.mem
  rw [treesAt_one] at ht
  obtain ⟨a, s, -, -, -, -, rfl⟩ := mem_characterTrees.1 ht
  exact ⟨a, s, rfl⟩

/-- A first tree over more characters is joined from first trees. -/
theorem IsFirst.exists_parts (hp : policy.Prefers order) (hl : 2 ≤ l)
    (h : g.IsFirst lookup policy text i l t) : ∃ k, 0 < k ∧ k < l ∧ ∃ a left right,
      t = .branch a left right ∧ g.IsFirst lookup policy text i k left ∧
        g.IsFirst lookup policy text (i + k) (l - k) right := by
  obtain ⟨k, hk⟩ := (treesAt_ne_nil_iff hp hl).1 (List.ne_nil_of_mem h.mem)
  have hfirst := mem_firstOfEachKind_iff.2 h
  rw [treesAt_eq_joinedAt hp hk, joinedAt, firstOfEachKind_joinedTrees] at hfirst
  obtain ⟨a, left, hleft, right, hright, -, rfl⟩ :=
    mem_joinedTrees.1 (mem_of_mem_firstOfEachKind hfirst)
  exact ⟨k, hk.joins.1, hk.joins.2.1, a, left, right, rfl, mem_firstOfEachKind_iff.1 hleft,
    mem_firstOfEachKind_iff.1 hright⟩

/-- Every subtree of a first tree, but for its leaves, is the first tree of its symbol over its
own span. -/
theorem IsFirst.of_mem_nodes (hp : policy.Prefers order) (h : g.IsFirst lookup policy text i l t)
    (hx : x ∈ t.nodes) (hshape : x.shape ≠ .leaf) : ∃ j m : Nat, i ≤ j ∧ j + m ≤ i + l ∧
      x.span = ⟨j, m⟩ ∧ g.IsFirst lookup policy text j m x := by
  induction l using Nat.strongRecOn generalizing i t with
  | _ l ih =>
    have hspan : t.span = ⟨i, l⟩ := span_of_mem_treesAt hp.decisive.staysOver h.mem
    by_cases hroot : x = t
    · exact ⟨i, l, Nat.le_refl i, Nat.le_refl _, hroot ▸ hspan, hroot ▸ h⟩
    by_cases h1 : l = 1
    · subst h1
      obtain ⟨a, s, rfl⟩ := h.exists_character
      rw [Tree.nodes_unary, List.mem_cons, List.mem_singleton] at hx
      obtain rfl := hx.resolve_left hroot
      exact absurd rfl hshape
    · have := h.pos
      obtain ⟨k, hk, hkl, a, left, right, rfl, hleft, hright⟩ := h.exists_parts hp (by omega)
      rw [Tree.branch, Tree.nodes_binary, List.mem_cons, List.mem_append] at hx
      rcases hx.resolve_left hroot with hx | hx
      · obtain ⟨j, m, hj, hm, hx⟩ := ih k hkl hleft hx
        exact ⟨j, m, hj, by omega, hx⟩
      · obtain ⟨j, m, hj, hm, hx⟩ := ih (l - k) (by omega) hright hx
        exact ⟨j, m, by omega, by omega, hx⟩

/-- The trees over a span do not depend on the start symbol. -/
theorem treesAt_withStart (start : σ) (i l : Nat) :
    ({ g with start } : Grammar σ).treesAt lookup policy text i l =
      g.treesAt lookup policy text i l := by
  induction l using Nat.strongRecOn generalizing i with
  | _ l ih =>
    by_cases h0 : l = 0
    · rw [h0, treesAt_zero, treesAt_zero]
    by_cases h1 : l = 1
    · rw [h1, treesAt_one, treesAt_one]
      rfl
    · rw [treesAt_of_two_le (by omega), treesAt_of_two_le (by omega)]
      exact congrArg (fun cs => (policy cs).trees) (candidatesOf_congr fun j m hm => ih m hm j)

/-- A first tree over a span is, shifted, the first one of its symbol over the part of the text
that the span covers, whatever the start symbol is. -/
theorem IsFirst.shift (hp : policy.Prefers order) (h : g.IsFirst lookup policy text i l t)
    (start : σ) : ({ g with start } : Grammar σ).IsFirst lookup policy (slice text i l) 0 l
      (t.shift (-i)) := by
  rw [IsFirst, treesAt_withStart, treesAt_slice hp (by omega), Nat.add_zero, find?_map_shift,
    Tree.kind_shift, h, Option.map_some]

end Grammar

end ChartParsing
