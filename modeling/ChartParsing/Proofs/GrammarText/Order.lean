import ChartParsing.Proofs.Grammar.Interning
import ChartParsing.Proofs.GrammarText.Rereading
import Mathlib.Data.List.Nodup

/-!
# The order of a listing

A listing writes the rules of a grammar by the order of declaration of their left sides, and its
reader sees the left sides in this order. So the grammar that comes out of a listing lists left
sides as the first grammar declares them (`Grammar.unitLefts_relist`,
`Grammar.binaryLefts_relist`), and it gives a parser what the first one gives if that one lists
them so as well, and only then (`Grammar.ListsInOrder.leftsRelated`,
`Grammar.LeftsRelated.listsInOrder`). The listing itself is the same after it was read when the
start symbol is declared first, and only then (`Grammar.CanBeReread.listing_relist_iff`).
-/

namespace ChartParsing

open List Relator

/-- A part of a list without repetitions, in the order of the list, is what a filter leaves. -/
theorem eq_filter_of_sublist {α : Type} {as bs : List α} (h : as.Sublist bs) (hn : bs.Nodup)
    {p : α → Bool} (hp : ∀ b ∈ bs, b ∈ as ↔ p b = true) : as = bs.filter p := by
  induction h with
  | slnil => rfl
  | cons b h ih =>
    obtain ⟨hb, hn⟩ := nodup_cons.1 hn
    obtain ⟨hpb, hp⟩ := forall_mem_cons.1 hp
    rw [filter_cons_of_neg fun hmem => hb (h.subset (hpb.2 hmem))]
    exact ih hn hp
  | cons_cons b h ih =>
    obtain ⟨hb, hn⟩ := nodup_cons.1 hn
    obtain ⟨hpb, hp⟩ := forall_mem_cons.1 hp
    rw [filter_cons_of_pos (hpb.1 mem_cons_self)]
    refine congrArg (b :: ·) (ih hn fun x hx => ?_)
    have hne : x ≠ b := fun e => hb (e ▸ hx)
    rw [← hp x hx, mem_cons, or_iff_right hne]

namespace FirstSeen

variable {κ ν : Type} [DecidableEq κ] {keys seen : List κ}

/-- An element that stands once for each of some values is added if there are any. -/
theorem addAll_map_const (seen : List κ) (k : κ) (vs : List ν) :
    addAll seen (vs.map fun _ => k) = if vs.isEmpty then seen else add seen k := by
  cases vs with
  | nil => rfl
  | cons v vs =>
    have hrest : ∀ a ∈ vs.map fun _ => k, a ∈ add seen k := by
      intro a ha
      obtain ⟨-, -, rfl⟩ := mem_map.1 ha
      exact mem_add.2 (.inr rfl)
    rw [map_cons, addAll_cons, addAll_of_forall_mem hrest]
    rfl

theorem addAll_flatMap_map (hn : keys.Nodup) (hf : ∀ k ∈ keys, k ∉ seen) (f : κ → List ν) :
    addAll seen (keys.flatMap fun k => (f k).map fun _ => k) =
      seen ++ keys.filter fun k => !(f k).isEmpty := by
  induction keys generalizing seen with
  | nil => exact (append_nil seen).symm
  | cons k keys ih =>
    obtain ⟨hk, hn⟩ := nodup_cons.1 hn
    obtain ⟨hfresh, hf⟩ := forall_mem_cons.1 hf
    rw [flatMap_cons, addAll_append, addAll_map_const]
    by_cases he : (f k).isEmpty = true
    · rw [if_pos he, ih hn hf, filter_cons_of_neg (by simp [he])]
    · have hf' : ∀ a ∈ keys, a ∉ add seen k := by
        intro a ha hmem
        rcases mem_add.1 hmem with h | rfl
        · exact hf a ha h
        · exact hk ha
      rw [if_neg he, ih hn hf', filter_cons_of_pos (by simpa using he), add_of_not_mem hfresh,
        append_assoc, singleton_append]

/-- An element in front of a list without repetitions changes nothing when it is its head. -/
theorem ofList_cons_eq_self_iff {as : List κ} (hn : as.Nodup) {a : κ} :
    ofList (a :: as) = as ↔ as.head? = some a := by
  constructor
  · intro h
    obtain ⟨rest, hrest⟩ : [a] <+: ofList (a :: as) := prefix_addAll [a] as
    rw [← h, ← hrest]
    rfl
  · intro h
    obtain ⟨rest, rfl⟩ := head?_eq_some_iff.1 h
    have ha : add [a] a = [a] := add_of_mem mem_cons_self
    exact (congrArg (addAll · rest) ha).trans (ofList_of_nodup hn)

end FirstSeen

/-- Pairs that are grouped again keep the order of the keys that have a value. -/
theorem Groups.filter_keys_ofPairs_flatMap {κ ν : Type} [DecidableEq κ] [DecidableEq ν]
    {keys : List κ} (hn : keys.Nodup) {f : κ → List ν} (hf : ∀ k, (f k).Nodup) (v : ν) :
    let g := ofPairs (keys.flatMap fun k => (f k).map (k, ·))
    (g.keys.filter fun k => decide (v ∈ g.get k)) = keys.filter fun k => decide (v ∈ f k) := by
  intro g
  have hkeys : g.keys = keys.filter fun k => !(f k).isEmpty := by
    rw [keys_ofPairs, map_flatMap]
    simp only [map_map, Function.comp_def]
    exact FirstSeen.addAll_flatMap_map hn (by simp) f
  rw [hkeys, filter_filter]
  refine filter_congr fun k hk => ?_
  rw [get_ofPairs_flatMap hn f hk (hf k)]
  cases f k <;> simp

namespace Grammar

section Relisted

variable {g : Grammar String} (hg : g.HasNoRepeats)

include hg

/-- A grammar that was listed has the left sides of its unit rules in order of declaration. -/
theorem unitLefts_relist (t : String) :
    g.relist.unitLefts t = g.nonterminals.filter fun a => decide (t ∈ g.unitRules.get a) := by
  have hrules : g.relist.unitRules = Groups.ofPairs
      (g.nonterminals.flatMap fun a => (g.unitRules.get a).map (a, ·)) :=
    congrArg Groups.ofPairs (relisted_unit_eq g)
  rw [unitLefts, hrules]
  exact Groups.filter_keys_ofPairs_flatMap hg.nonterminals hg.unit t

/-- A grammar that was listed has the left sides of its binary rules in order of declaration. -/
theorem binaryLefts_relist (b c : String) : g.relist.binaryLefts b c =
    g.nonterminals.filter fun a => decide ((b, c) ∈ g.binaryRules.get a) := by
  have hrules : g.relist.binaryRules = Groups.ofPairs
      (g.nonterminals.flatMap fun a => (g.binaryRules.get a).map (a, ·)) :=
    congrArg Groups.ofPairs (relisted_binary_eq g)
  rw [binaryLefts, hrules]
  -- the two sides decide membership of a pair by different instances
  convert Groups.filter_keys_ofPairs_flatMap hg.nonterminals hg.binary (b, c)

theorem mem_unitLefts_relist (hs : g.IsSound) {a t : String} :
    a ∈ g.relist.unitLefts t ↔ a ∈ g.unitLefts t := by
  rw [unitLefts_relist hg, mem_filter, mem_unitLefts, decide_eq_true_eq]
  exact and_iff_right_of_imp fun h => hs.unit_left a (Groups.mem_keys_of_mem_get h)

theorem mem_binaryLefts_relist (hs : g.IsSound) {a b c : String} :
    a ∈ g.relist.binaryLefts b c ↔ a ∈ g.binaryLefts b c := by
  rw [binaryLefts_relist hg, mem_filter, mem_binaryLefts, decide_eq_true_eq]
  exact and_iff_right_of_imp fun h => hs.binary_left a (Groups.mem_keys_of_mem_get h)

end Relisted

/-- A grammar lists the left sides of each right side in order of declaration. -/
structure ListsInOrder {σ : Type} [DecidableEq σ] (g : Grammar σ) : Prop where
  unitParents : ∀ t, (g.unitParents t).Sublist g.nonterminals
  binaryParents : ∀ b c, (g.binaryParents b c).Sublist g.nonterminals

section Read

variable {α β : Type} [DecidableEq α] [DecidableEq β] {R : String → α → Prop}
variable {S : String → β → Prop} {named : Grammar String} {g : Grammar α} {h : Grammar β}

/-- What is listed in order is what a filter leaves of the nonterminals. -/
theorem ListsInOrder.unitLefts_eq (horder : g.ListsInOrder) (hi : g.IsIndexed)
    (hn : g.nonterminals.Nodup) (t : α) :
    g.unitLefts t = g.nonterminals.filter fun a => decide (t ∈ g.unitRules.get a) := by
  refine eq_filter_of_sublist (hi.unitParents_eq t ▸ horder.unitParents t) hn fun a _ => ?_
  rw [mem_unitLefts, decide_eq_true_eq]

theorem ListsInOrder.binaryLefts_eq (horder : g.ListsInOrder) (hi : g.IsIndexed)
    (hn : g.nonterminals.Nodup) (b c : α) :
    g.binaryLefts b c = g.nonterminals.filter fun a => decide ((b, c) ∈ g.binaryRules.get a) := by
  refine eq_filter_of_sublist (hi.binaryParents_eq b c ▸ horder.binaryParents b c) hn fun a _ => ?_
  rw [mem_binaryLefts, decide_eq_true_eq]

variable (hn : named.HasNoRepeats) (hg : named.RelatedInOrder R g)
variable (hh : named.relist.RelatedInOrder S h)

include hn hg hh

/-- The grammar that is read from a listing has the left sides of a terminal as the first grammar
declares them. -/
theorem forall₂_unitLefts_relist {s : String} {t : α} {u : β} (ht : R s t) (hu : S s u) :
    Forall₂ (fun x y => ∃ s, R s x ∧ S s y)
      (g.nonterminals.filter fun a => decide (t ∈ g.unitRules.get a)) (h.unitLefts u) := by
  have hleft : Forall₂ R (named.relist.unitLefts s)
      (g.nonterminals.filter fun a => decide (t ∈ g.unitRules.get a)) := by
    rw [unitLefts_relist hn]
    exact forall₂_filter_mem hg.biUnique hg.nonterminals (fun _ _ => hg.unit) ht
  exact forall₂_comp hleft.flip (hh.unitLefts hu) fun _ a _ hx hy => ⟨a, hx, hy⟩

/-- The grammar that is read from a listing has the left sides of a pair as the first grammar
declares them. -/
theorem forall₂_binaryLefts_relist {s₁ s₂ : String} {a₁ a₂ : α} {b₁ b₂ : β} (ha₁ : R s₁ a₁)
    (ha₂ : R s₂ a₂) (hb₁ : S s₁ b₁) (hb₂ : S s₂ b₂) : Forall₂ (fun x y => ∃ s, R s x ∧ S s y)
      (g.nonterminals.filter fun a => decide ((a₁, a₂) ∈ g.binaryRules.get a))
      (h.binaryLefts b₁ b₂) := by
  have hleft : Forall₂ R (named.relist.binaryLefts s₁ s₂)
      (g.nonterminals.filter fun a => decide ((a₁, a₂) ∈ g.binaryRules.get a)) := by
    have hpair : PairRel R R (s₁, s₂) (a₁, a₂) := ⟨ha₁, ha₂⟩
    rw [binaryLefts_relist hn]
    exact forall₂_filter_mem (biUnique_pairRel hg.biUnique hg.biUnique) hg.nonterminals
      (fun _ _ => hg.binary) hpair
  exact forall₂_comp hleft.flip (hh.binaryLefts hb₁ hb₂) fun _ a _ hx hy => ⟨a, hx, hy⟩

variable (hs : named.IsSound) (hi : g.IsIndexed)

include hs hi

/-- A grammar that lists left sides in order of declaration and the grammar that is read from its
listing give a parser the same, by names. -/
theorem ListsInOrder.leftsRelated (horder : g.ListsInOrder) :
    g.LeftsRelated (fun x y => ∃ s, R s x ∧ S s y) h := by
  have hnodup : g.nonterminals.Nodup := (rel_nodup hg.biUnique hg.nonterminals).1 hn.nonterminals
  refine ⟨⟨named.start, hg.start, hh.start⟩, ?_, ?_, ?_, ?_⟩
  · rintro t u ⟨s, ht, hu⟩
    rw [horder.unitLefts_eq hi hnodup]
    exact forall₂_unitLefts_relist hn hg hh ht hu
  · rintro a₁ a₂ b₁ b₂ ⟨s₁, ha₁, hb₁⟩ ⟨s₂, ha₂, hb₂⟩
    rw [horder.binaryLefts_eq hi hnodup]
    exact forall₂_binaryLefts_relist hn hg hh ha₁ ha₂ hb₁ hb₂
  · intro a t ha
    obtain ⟨s, ht⟩ := hg.exists_left ha
    obtain ⟨left, hleft, -⟩ := exists_of_mem_right (hg.unitLefts ht) ha
    obtain ⟨u, hu⟩ := hh.exists_right ((mem_unitLefts_relist hn hs).2 hleft)
    exact ⟨u, s, ht, hu⟩
  · intro b u hb
    obtain ⟨s, hu⟩ := hh.exists_left hb
    obtain ⟨left, hleft, -⟩ := exists_of_mem_right (hh.unitLefts hu) hb
    obtain ⟨t, ht⟩ := hg.exists_right ((mem_unitLefts_relist hn hs).1 hleft)
    exact ⟨t, s, ht, hu⟩

/-- A grammar that gives a parser the same as the grammar that is read from its listing lists left
sides in order of declaration. -/
theorem LeftsRelated.listsInOrder (hl : g.LeftsRelated (fun x y => ∃ s, R s x ∧ S s y) h) :
    g.ListsInOrder := by
  have hunique := (biUnique_through hg.biUnique hh.biUnique).1
  constructor
  · intro t
    rw [hi.unitParents_eq]
    by_cases hnil : g.unitLefts t = []
    · exact hnil ▸ nil_sublist _
    · obtain ⟨a, ha⟩ := exists_mem_of_ne_nil _ hnil
      obtain ⟨u, s, ht, hu⟩ := hl.exists_right ha
      rw [left_unique_forall₂' hunique (hl.unitLefts ⟨s, ht, hu⟩)
        (forall₂_unitLefts_relist hn hg hh ht hu)]
      exact filter_sublist
  · intro b c
    rw [hi.binaryParents_eq]
    by_cases hnil : g.binaryLefts b c = []
    · exact hnil ▸ nil_sublist _
    · obtain ⟨a, ha⟩ := exists_mem_of_ne_nil _ hnil
      obtain ⟨s₁, s₂, hb, hc⟩ := hg.exists_lefts ha
      obtain ⟨left, hleft, -⟩ := exists_of_mem_right (hg.binaryLefts hb hc) ha
      obtain ⟨u₁, u₂, hu₁, hu₂⟩ := hh.exists_rights ((mem_binaryLefts_relist hn hs).2 hleft)
      rw [left_unique_forall₂' hunique (hl.binaryLefts ⟨s₁, hb, hu₁⟩ ⟨s₂, hc, hu₂⟩)
        (forall₂_binaryLefts_relist hn hg hh hb hc hu₁ hu₂)]
      exact filter_sublist

end Read

/-- A listing comes out of the grammar that is read from it again exactly when the start symbol
is the first nonterminal. -/
theorem CanBeReread.listing_relist_iff {g : Grammar String} (h : g.CanBeReread)
    (hn : g.HasNoRepeats) (hterminals : g.terminals.Nodup) :
    "\n".intercalate g.relist.lines = "\n".intercalate g.lines ↔
      g.nonterminals.head? = some g.start := by
  rw [← FirstSeen.ofList_cons_eq_self_iff hn.nonterminals]
  constructor
  · intro heq
    -- equal texts are read as the same items
    have hitems := items_lines h.relist.toCanBeWritten
    rw [heq, items_lines h.toCanBeWritten, Except.ok.injEq] at hitems
    injection hitems with _ hrest
    injection hrest with _ hrest
    injection hrest with hnonterminals _
    injection hnonterminals with hnonterminals
    rw [← nonterminals_relist, ← hnonterminals]
  · intro hstart
    have hlines : g.relist.lines = g.lines := by
      refine lines_congr rfl ?_ ?_ ?_
      · rw [terminals_relist, FirstSeen.ofList_of_nodup hterminals]
      · rw [nonterminals_relist, hstart]
      · rw [rules_relist h.isSound hn, hstart]
        rfl
    rw [hlines]

end Grammar

end ChartParsing
