import ChartParsing.Proofs.Chart.Forest
import ChartParsing.Proofs.Chart.WinningSplit
import Mathlib.Algebra.Group.Nat.Defs
import Mathlib.Data.List.Perm.Subperm
import Mathlib.Data.List.ProdSigma

/-!
# How many trees a cell can have

Trees are joined pair by pair and rule by rule, and no tree is dropped because its symbol is there
already: a split joins as many trees of a symbol as there are pairs of symbols on its sides that
the symbol expands to (`Grammar.count_kinds_joinedTrees`). Where symbols occur once on either side
they occur once again exactly when no symbol expands to two of these pairs
(`Grammar.nodup_kinds_joinedTrees_iff`). The number of trees over a span can grow with its length
(`Grammar.length_treesAt_le`), and it grows as far as that where everything joins everything
(`Grammar.JoinsEverything.length_treesAt`).
-/

namespace ChartParsing

section Lists

variable {α β : Type} {xs : List α} {f : α → List β} {n : Nat}

theorem length_flatMap_le (h : ∀ x ∈ xs, (f x).length ≤ n) :
    (xs.flatMap f).length ≤ xs.length * n := by
  induction xs with
  | nil => simp
  | cons x xs ih =>
    obtain ⟨hx, hrest⟩ := List.forall_mem_cons.1 h
    rw [List.flatMap_cons, List.length_append, List.length_cons, Nat.succ_mul, Nat.add_comm]
    exact Nat.add_le_add (ih hrest) hx

theorem length_flatMap_eq (h : ∀ x ∈ xs, (f x).length = n) :
    (xs.flatMap f).length = xs.length * n := by
  induction xs with
  | nil => simp
  | cons x xs ih =>
    obtain ⟨hx, hrest⟩ := List.forall_mem_cons.1 h
    rw [List.flatMap_cons, List.length_append, List.length_cons, Nat.succ_mul, Nat.add_comm, hx,
      ih hrest]

/-- What no part holds twice stands in the whole as often as there are parts that hold it. -/
theorem count_flatMap_of_nodup [DecidableEq β] (h : ∀ x, (f x).Nodup) (b : β) :
    (xs.flatMap f).count b = xs.countP fun x => decide (b ∈ f x) := by
  induction xs with
  | nil => rfl
  | cons x xs ih =>
    rw [List.flatMap_cons, List.count_append, ih, List.countP_cons, Nat.add_comm]
    congr 1
    by_cases hb : b ∈ f x
    · rw [List.count_eq_one_of_mem (h x) hb, if_pos (decide_eq_true hb)]
    · rw [List.count_eq_zero_of_not_mem hb, if_neg (by simpa using hb)]

/-- A list without repetitions has at most one element that passes a test when any two of these
are equal. -/
theorem countP_le_one_iff {p : α → Bool} (h : xs.Nodup) :
    xs.countP p ≤ 1 ↔ ∀ x ∈ xs, ∀ y ∈ xs, p x = true → p y = true → x = y := by
  have hpairs : ∀ ys : List α, ys.Nodup → (ys.length ≤ 1 ↔ ∀ x ∈ ys, ∀ y ∈ ys, x = y) := by
    intro ys hn
    match ys with
    | [] => simp
    | [x] => simp
    | x :: y :: rest =>
      refine iff_of_false (by simp) fun hall => ?_
      have hxy : x = y := hall x List.mem_cons_self y (by simp)
      exact (List.nodup_cons.1 hn).1 (hxy ▸ List.mem_cons_self)
  rw [List.countP_eq_length_filter, hpairs _ (h.filter p)]
  simp only [List.mem_filter, and_imp]
  exact ⟨fun hall x hx y hy hpx hpy => hall x hx hpx y hy hpy,
    fun hall x hx hpx y hy hpy => hall x hx y hy hpx hpy⟩

end Lists

namespace Grammar

variable {σ : Type} [DecidableEq σ] {g : Grammar σ} {lookup : Char → Option σ}
variable {policy : Policy σ} {text : List Char} {order : Int → Int → Prop} {i l k : Nat}

section Joined

/-- The pairs of the symbols of two lists of trees. -/
def kindPairs (lefts rights : List (Tree σ)) : List (σ × σ) :=
  lefts.map Tree.kind ×ˢ rights.map Tree.kind

omit [DecidableEq σ] in
theorem length_kindPairs (lefts rights : List (Tree σ)) :
    (kindPairs lefts rights).length = lefts.length * rights.length := by
  rw [kindPairs, List.length_product, List.length_map, List.length_map]

/-- The symbols of the trees that two lists of trees are joined to. -/
theorem kinds_joinedTrees (lefts rights : List (Tree σ)) :
    (g.joinedTrees lefts rights).map Tree.kind =
      (kindPairs lefts rights).flatMap fun p => g.binaryLefts p.1 p.2 := by
  have hkind : ∀ x y : Tree σ, ((g.binaryLefts x.kind y.kind).map fun a => Tree.branch a x y).map
      Tree.kind = g.binaryLefts x.kind y.kind := by
    intro x y
    rw [List.map_map]
    exact List.map_id _
  simp only [joinedTrees, kindPairs, SProd.sprod, List.product, List.map_flatMap, hkind,
    List.flatMap_assoc, List.flatMap_map]

/-- A symbol has a tree for each pair of symbols that it expands to. -/
theorem count_kinds_joinedTrees (hg : g.IsIndexed) (lefts rights : List (Tree σ)) (a : σ) :
    ((g.joinedTrees lefts rights).map Tree.kind).count a =
      (kindPairs lefts rights).countP fun p => decide (p ∈ g.binaryRules.get a) := by
  have hlefts : ∀ p : σ × σ, (g.binaryLefts p.1 p.2).Nodup := fun p => hg.nodup_binaryLefts p.1 p.2
  rw [kinds_joinedTrees, count_flatMap_of_nodup hlefts]
  simp only [mem_binaryLefts]

/-- No symbol has more trees than there are pairs of trees to join. -/
theorem count_kinds_joinedTrees_le (hg : g.IsIndexed) (lefts rights : List (Tree σ)) (a : σ) :
    ((g.joinedTrees lefts rights).map Tree.kind).count a ≤ lefts.length * rights.length := by
  rw [count_kinds_joinedTrees hg, ← length_kindPairs]
  exact List.countP_le_length

/-- No symbol expands to two different pairs of symbols out of two lists. -/
def JoinsOnce (g : Grammar σ) (lefts rights : List σ) : Prop :=
  ∀ a, ∀ p ∈ lefts ×ˢ rights, ∀ q ∈ lefts ×ˢ rights,
    p ∈ g.binaryRules.get a → q ∈ g.binaryRules.get a → p = q

/-- Symbols that occur once on either side occur once again when no symbol expands to two pairs. -/
theorem nodup_kinds_joinedTrees_iff (hg : g.IsIndexed) {lefts rights : List (Tree σ)}
    (hl : (lefts.map Tree.kind).Nodup) (hr : (rights.map Tree.kind).Nodup) :
    ((g.joinedTrees lefts rights).map Tree.kind).Nodup ↔
      g.JoinsOnce (lefts.map Tree.kind) (rights.map Tree.kind) := by
  rw [List.nodup_iff_count_le_one, JoinsOnce]
  refine forall_congr' fun a => ?_
  rw [count_kinds_joinedTrees hg, kindPairs, countP_le_one_iff (hl.product hr)]
  simp only [decide_eq_true_eq]

end Joined

/-- No symbol is found twice for one character. -/
theorem nodup_kinds_characterTrees (hg : g.IsIndexed) (i : Nat) :
    ((g.characterTrees lookup text i).map Tree.kind).Nodup := by
  unfold characterTrees
  cases text[i]?.bind lookup with
  | none => exact List.nodup_nil
  | some s =>
    rw [List.map_map]
    exact (List.map_id (g.unitLefts s)).symm ▸ hg.nodup_unitLefts s

/-- The trees over a span are those that a split of it joins, and there are any. -/
structure IsJoinedBy (g : Grammar σ) (trees : Nat → Nat → List (Tree σ)) (i l k : Nat) : Prop where
  pos : 0 < k
  lt : k < l
  ne_nil : trees i l ≠ []
  eq : trees i l = g.joinedTrees (trees i k) (trees (i + k) (l - k))

theorem IsJoinedBy.rest_lt {trees : Nat → Nat → List (Tree σ)} (h : g.IsJoinedBy trees i l k) :
    l - k < l :=
  Nat.sub_lt_self h.pos h.lt.le

/-- With a policy that prefers splits in an order, a span has no trees, or one character, or the
trees of one split. -/
theorem treesAt_cases (hp : policy.Prefers order) (g : Grammar σ) (lookup : Char → Option σ)
    (text : List Char) (i l : Nat) :
    g.treesAt lookup policy text i l = [] ∨
      (l = 1 ∧ g.treesAt lookup policy text i l = g.characterTrees lookup text i) ∨
      ∃ k, g.IsJoinedBy (g.treesAt lookup policy text) i l k := by
  by_cases hne : g.treesAt lookup policy text i l = []
  · exact .inl hne
  by_cases h1 : l = 1
  · exact .inr (.inl ⟨h1, h1 ▸ treesAt_one⟩)
  · have h0 : l ≠ 0 := fun h0 => hne (h0 ▸ treesAt_zero)
    obtain ⟨k, hk⟩ := (treesAt_ne_nil_iff hp (by omega)).1 hne
    exact .inr (.inr ⟨k, hk.joins.1, hk.joins.2.1, hne, treesAt_eq_joinedAt hp hk⟩)

/-- What holds of no trees, of the trees over one character and of the trees that are joined holds
of the trees over every span. -/
theorem treesAt_induction (hp : policy.Prefers order) {P : Nat → List (Tree σ) → Prop}
    (nil : ∀ l, P l []) (one : ∀ i, P 1 (g.characterTrees lookup text i))
    (joined : ∀ l k, 0 < k → k < l → ∀ lefts rights, P k lefts → P (l - k) rights →
      P l (g.joinedTrees lefts rights)) : P l (g.treesAt lookup policy text i l) := by
  induction l using Nat.strongRecOn generalizing i with
  | _ l ih =>
    rcases treesAt_cases hp g lookup text i l with hnil | ⟨rfl, hone⟩ | ⟨k, hk⟩
    · rw [hnil]
      exact nil l
    · rw [hone]
      exact one i
    · rw [hk.eq]
      exact joined l k hk.pos hk.lt _ _ (ih k hk.lt) (ih (l - k) hk.rest_lt)

/-- No tree is listed twice over a span. -/
theorem nodup_treesAt_of_prefers (hg : g.IsIndexed) (hp : policy.Prefers order) :
    (g.treesAt lookup policy text i l).Nodup :=
  treesAt_induction hp (P := fun _ trees => trees.Nodup) (fun _ => List.nodup_nil)
    (fun _ => nodup_characterTrees hg) fun _ _ _ _ _ _ => nodup_joinedTrees hg

/-! ### One tree of each symbol -/

/-- Over every span each symbol has at most one tree exactly when no split whose trees are taken
has a symbol that expands to two pairs of the symbols on its sides. -/
theorem forall_nodup_kinds_treesAt_iff (hg : g.IsIndexed) (hp : policy.Prefers order) :
    (∀ i l, ((g.treesAt lookup policy text i l).map Tree.kind).Nodup) ↔
      ∀ i l k, g.IsJoinedBy (g.treesAt lookup policy text) i l k →
        g.JoinsOnce ((g.treesAt lookup policy text i k).map Tree.kind)
          ((g.treesAt lookup policy text (i + k) (l - k)).map Tree.kind) := by
  constructor
  · intro hall i l k hk
    rw [← nodup_kinds_joinedTrees_iff hg (hall _ _) (hall _ _), ← hk.eq]
    exact hall i l
  · intro honce i l
    induction l using Nat.strongRecOn generalizing i with
    | _ l ih =>
      rcases treesAt_cases hp g lookup text i l with hnil | ⟨rfl, hone⟩ | ⟨k, hk⟩
      · rw [hnil]
        exact List.nodup_nil
      · rw [hone]
        exact nodup_kinds_characterTrees hg i
      · rw [hk.eq, nodup_kinds_joinedTrees_iff hg (ih k hk.lt i) (ih (l - k) hk.rest_lt (i + k))]
        exact honce i l k hk

/-- A grammar with one binary rule for each symbol joins no symbol twice. -/
theorem joinsOnce_of_length_le_one (h : ∀ a, (g.binaryRules.get a).length ≤ 1)
    (lefts rights : List σ) : g.JoinsOnce lefts rights := by
  intro a p _ q _ hp hq
  match hrules : g.binaryRules.get a, h a with
  | [], _ =>
    rw [hrules] at hp
    cases hp
  | [r], _ =>
    rw [hrules] at hp hq
    rw [List.mem_singleton.1 hp, List.mem_singleton.1 hq]

/-! ### As many trees as there can be -/

section Bounds

variable (hg : g.IsIndexed) (hs : g.IsSound)

include hg hs

/-- No more symbols than there are nonterminals expand to a terminal. -/
theorem length_unitLefts_le (t : σ) : (g.unitLefts t).length ≤ g.nonterminals.length :=
  ((hg.nodup_unitLefts t).subperm fun _ ha =>
    hs.unit_left _ (List.mem_filter.1 ha).1).length_le

/-- No more symbols than there are nonterminals expand to a pair of symbols. -/
theorem length_binaryLefts_le (b c : σ) : (g.binaryLefts b c).length ≤ g.nonterminals.length :=
  ((hg.nodup_binaryLefts b c).subperm fun _ ha =>
    hs.binary_left _ (List.mem_filter.1 ha).1).length_le

theorem length_characterTrees_le (i : Nat) :
    (g.characterTrees lookup text i).length ≤ g.nonterminals.length := by
  unfold characterTrees
  cases text[i]?.bind lookup with
  | none => exact Nat.zero_le _
  | some t =>
    rw [List.length_map]
    exact length_unitLefts_le hg hs t

theorem length_joinedTrees_le (lefts rights : List (Tree σ)) :
    (g.joinedTrees lefts rights).length ≤
      lefts.length * rights.length * g.nonterminals.length := by
  rw [← List.length_map Tree.kind, kinds_joinedTrees, ← length_kindPairs]
  exact length_flatMap_le fun p _ => length_binaryLefts_le hg hs p.1 p.2

/-- Over `l` characters there are at most as many trees as the power of the number of nonterminals
that has one factor for each node of such a tree. -/
theorem length_treesAt_le (hp : policy.Prefers order) :
    (g.treesAt lookup policy text i l).length ≤ g.nonterminals.length ^ (2 * l - 1) := by
  refine treesAt_induction hp
    (P := fun l trees => trees.length ≤ g.nonterminals.length ^ (2 * l - 1))
    (fun _ => Nat.zero_le _) (fun i => ?_) fun l k hk hkl lefts rights hl hr => ?_
  · exact (length_characterTrees_le hg hs i).trans (Nat.le_of_eq (pow_one _).symm)
  · have hexponent : 2 * l - 1 = (2 * k - 1) + (2 * (l - k) - 1) + 1 := by omega
    rw [hexponent, pow_succ, pow_add]
    exact (length_joinedTrees_le hg hs lefts rights).trans
      (Nat.mul_le_mul_right _ (Nat.mul_le_mul hl hr))

/-- Of these the trees of one symbol have no choice at the root, and so one factor less. -/
theorem count_kinds_treesAt_le (hp : policy.Prefers order) (a : σ) :
    ((g.treesAt lookup policy text i l).map Tree.kind).count a ≤
      g.nonterminals.length ^ (2 * l - 2) := by
  rcases treesAt_cases hp g lookup text i l with hnil | ⟨rfl, hone⟩ | ⟨k, hk⟩
  · rw [hnil]
    exact Nat.zero_le _
  · rw [hone]
    exact List.nodup_iff_count_le_one.1 (nodup_kinds_characterTrees hg i) a
  · have hpos := hk.pos
    have hlt := hk.lt
    have hexponent : 2 * l - 2 = (2 * k - 1) + (2 * (l - k) - 1) := by omega
    rw [hk.eq, hexponent, pow_add]
    exact (count_kinds_joinedTrees_le hg _ _ a).trans
      (Nat.mul_le_mul (length_treesAt_le hg hs hp) (length_treesAt_le hg hs hp))

end Bounds

/-! ### Grammars that join everything -/

/-- Every nonterminal expands to a terminal and to every pair of nonterminals. -/
structure JoinsEverything (g : Grammar σ) (x : σ) : Prop where
  unit : ∀ a ∈ g.nonterminals, x ∈ g.unitRules.get a
  binary : ∀ a ∈ g.nonterminals, ∀ b ∈ g.nonterminals, ∀ c ∈ g.nonterminals,
    (b, c) ∈ g.binaryRules.get a

namespace JoinsEverything

variable {x : σ} (h : g.JoinsEverything x) (hg : g.IsIndexed) (hs : g.IsSound)
variable (hn : g.nonterminals.Nodup)

include h hg hs hn

theorem length_unitLefts : (g.unitLefts x).length = g.nonterminals.length :=
  ((List.perm_ext_iff_of_nodup (hg.nodup_unitLefts x) hn).2 fun a =>
    ⟨fun ha => hs.unit_left a (List.mem_filter.1 ha).1,
      fun ha => mem_unitLefts.2 (h.unit a ha)⟩).length_eq

theorem length_binaryLefts {b c : σ} (hb : b ∈ g.nonterminals) (hc : c ∈ g.nonterminals) :
    (g.binaryLefts b c).length = g.nonterminals.length :=
  ((List.perm_ext_iff_of_nodup (hg.nodup_binaryLefts b c) hn).2 fun a =>
    ⟨fun ha => hs.binary_left a (List.mem_filter.1 ha).1,
      fun ha => mem_binaryLefts.2 (h.binary a ha b hb c hc)⟩).length_eq

theorem length_joinedTrees {lefts rights : List (Tree σ)}
    (hl : ∀ t ∈ lefts, t.kind ∈ g.nonterminals) (hr : ∀ t ∈ rights, t.kind ∈ g.nonterminals) :
    (g.joinedTrees lefts rights).length =
      lefts.length * rights.length * g.nonterminals.length := by
  rw [← List.length_map Tree.kind, kinds_joinedTrees, ← length_kindPairs]
  apply length_flatMap_eq
  rintro ⟨b, c⟩ hp
  obtain ⟨hb, hc⟩ := List.pair_mem_product.1 hp
  obtain ⟨y, hy, rfl⟩ := List.mem_map.1 hb
  obtain ⟨z, hz, rfl⟩ := List.mem_map.1 hc
  exact h.length_binaryLefts hg hs hn (hl y hy) (hr z hz)

/-- The bound on the number of trees is reached over every span of a text of the letter. -/
theorem length_treesAt (hp : policy.Prefers order)
    (htext : ∀ c ∈ text, lookup c = some x) (hpos : 0 < l) (hi : i + l ≤ text.length) :
    (g.treesAt lookup policy text i l).length = g.nonterminals.length ^ (2 * l - 1) := by
  have hkinds : ∀ j m, ∀ t ∈ g.treesAt lookup policy text j m, t.kind ∈ g.nonterminals :=
    fun j m t ht => hs.kind_mem hp.decisive.onlyPicks ht
  induction l using Nat.strongRecOn generalizing i with
  | _ l ih =>
    by_cases h1 : l = 1
    · have hchar : text[i]?.bind lookup = some x := by
        rw [List.getElem?_eq_getElem (by omega), Option.bind_some]
        exact htext _ (List.getElem_mem _)
      rw [h1, treesAt_one, characterTrees, hchar, List.length_map,
        h.length_unitLefts hg hs hn, pow_one]
    · -- whichever split wins, it joins as many trees as every other one
      have hjoined : ∀ k, 0 < k → k < l → (g.joinedAt lookup policy text i l k).length =
          g.nonterminals.length ^ (2 * l - 1) := by
        intro k hk hkl
        have hexponent : 2 * l - 1 = (2 * k - 1) + (2 * (l - k) - 1) + 1 := by omega
        rw [joinedAt, h.length_joinedTrees hg hs hn (hkinds _ _) (hkinds _ _),
          ih k hkl hk (by omega), ih (l - k) (by omega) (by omega) (by omega), hexponent,
          pow_succ, pow_add]
      have hsome : 1 ∈ g.joiningSplits lookup policy text i l := by
        refine ⟨Nat.one_pos, by omega, fun hnil => ?_⟩
        have hlen := hjoined 1 Nat.one_pos (by omega)
        rw [hnil, List.length_nil] at hlen
        exact (Nat.pow_pos (List.length_pos_of_mem hs.start_mem)).ne hlen
      obtain ⟨k, hk⟩ := exists_wins hp hsome
      rw [treesAt_eq_joinedAt hp hk]
      exact hjoined k hk.joins.1 hk.joins.2.1

end JoinsEverything

end Grammar

end ChartParsing
