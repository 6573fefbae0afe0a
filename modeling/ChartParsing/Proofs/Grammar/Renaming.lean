import ChartParsing.Proofs.Grammar.NormalForm
import ChartParsing.Proofs.Steps
import Mathlib.Data.List.Forall2

/-!
# Grammars over related symbols

When the symbols of two grammars are related one to one and their declarations are related
part by part, all that is kept in order of first appearance is related as well: the symbols,
the right sides of each left side, and the rules (`Grammar.related_ofDeclarations`,
`Grammar.Related.rules`).
-/

namespace ChartParsing

open Relator List

variable {α β γ δ : Type} {R : α → β → Prop} {S : γ → δ → Prop}

/-- Pairs are related when their parts are. -/
def PairRel (R : α → β → Prop) (S : γ → δ → Prop) (p : α × γ) (q : β × δ) : Prop :=
  R p.1 q.1 ∧ S p.2 q.2

theorem biUnique_pairRel (hR : BiUnique R) (hS : BiUnique S) : BiUnique (PairRel R S) :=
  ⟨fun _ _ _ h h' => Prod.ext (hR.1 h.1 h'.1) (hS.1 h.2 h'.2),
    fun _ _ _ h h' => Prod.ext (hR.2 h.1 h'.1) (hS.2 h.2 h'.2)⟩

/-- Relations to one type relate what they relate to the same thing. -/
theorem biUnique_through {R : γ → α → Prop} {S : γ → β → Prop} (hR : BiUnique R)
    (hS : BiUnique S) : BiUnique fun x y => ∃ s, R s x ∧ S s y := by
  refine ⟨?_, ?_⟩
  · rintro x x' y ⟨s, hx, hy⟩ ⟨s', hx', hy'⟩
    obtain rfl := hS.1 hy hy'
    exact hR.2 hx hx'
  · rintro x y y' ⟨s, hx, hy⟩ ⟨s', hx', hy'⟩
    obtain rfl := hR.1 hx hx'
    exact hS.2 hy hy'

/-- Elements of related lists are kept alike for having related things. -/
theorem forall₂_filter_mem (hS : BiUnique S) {as : List α} {bs : List β} (h : Forall₂ R as bs)
    {f : α → List γ} {f' : β → List δ} (hf : ∀ a b, R a b → Forall₂ S (f a) (f' b)) {c : γ} {d : δ}
    (hcd : S c d) [∀ a, Decidable (c ∈ f a)] [∀ b, Decidable (d ∈ f' b)] :
    Forall₂ R (as.filter fun a => decide (c ∈ f a)) (bs.filter fun b => decide (d ∈ f' b)) := by
  refine rel_filter (fun a b hab => ?_) h
  have hmem : c ∈ f a ↔ d ∈ f' b := rel_mem hS hcd (hf a b hab)
  exact decide_eq_true_iff.trans (hmem.trans decide_eq_true_iff.symm)

namespace FirstSeen

variable [DecidableEq α] [DecidableEq β] {as : List α} {bs : List β}

theorem forall₂_add (hR : BiUnique R) (h : Forall₂ R as bs) {a : α} {b : β} (hab : R a b) :
    Forall₂ R (add as a) (add bs b) := by
  have hmem : a ∈ as ↔ b ∈ bs := rel_mem hR hab h
  by_cases ha : a ∈ as
  · rwa [add_of_mem ha, add_of_mem (hmem.1 ha)]
  · rw [add_of_not_mem ha, add_of_not_mem (mt hmem.2 ha)]
    exact rel_append h (.cons hab .nil)

/-- Related lists have their first appearances at the same places. -/
theorem forall₂_ofList (hR : BiUnique R) (h : Forall₂ R as bs) :
    Forall₂ R (ofList as) (ofList bs) := by
  have hadd : LiftFun (Forall₂ R) (LiftFun R (Forall₂ R)) add add :=
    fun _ _ h _ _ hab => forall₂_add hR h hab
  exact rel_foldl hadd .nil h

end FirstSeen

/-- Related pairs give related values to related keys. -/
theorem Groups.forall₂_get_ofPairs [DecidableEq α] [DecidableEq β] [DecidableEq γ]
    [DecidableEq δ] (hR : BiUnique R) (hS : BiUnique S) {ps : List (α × γ)} {qs : List (β × δ)}
    (h : Forall₂ (PairRel R S) ps qs) {a : α} {b : β} (hab : R a b) :
    Forall₂ S ((ofPairs ps).get a) ((ofPairs qs).get b) := by
  rw [get_ofPairs, get_ofPairs]
  apply FirstSeen.forall₂_ofList hS
  have hkey : ∀ p q, PairRel R S p q → (decide (p.1 = a) = true ↔ decide (q.1 = b) = true) := by
    intro p q hpq
    simp only [decide_eq_true_eq]
    exact ⟨fun e => hR.2 hpq.1 (e ▸ hab), fun e => hR.1 hpq.1 (e ▸ hab)⟩
  exact rel_map (fun _ _ hpq => hpq.2) (rel_filter hkey h)

/-- Related pairs have related keys in the same order. -/
theorem Groups.forall₂_keys_ofPairs [DecidableEq α] [DecidableEq β] [DecidableEq γ]
    [DecidableEq δ] (hR : BiUnique R) {ps : List (α × γ)} {qs : List (β × δ)}
    (h : Forall₂ (PairRel R S) ps qs) : Forall₂ R (ofPairs ps).keys (ofPairs qs).keys := by
  rw [keys_ofPairs, keys_ofPairs]
  exact FirstSeen.forall₂_ofList hR (rel_map (fun _ _ hpq => hpq.1) h)

/-- Declarations are related part by part. -/
structure Declarations.Related (R : α → β → Prop) (d : Declarations α) (e : Declarations β) :
    Prop where
  start : R d.start e.start
  terminals : Forall₂ R d.terminals e.terminals
  nonterminals : Forall₂ R d.nonterminals e.nonterminals
  binary : Forall₂ (PairRel R (PairRel R R)) d.binary e.binary
  unit : Forall₂ (PairRel R R) d.unit e.unit

/-- Declarations that are related one to one to sound ones are sound. -/
theorem Declarations.Related.isSound {d : Declarations α} {e : Declarations β}
    (h : d.Related R e) (hR : BiUnique R) (hd : d.IsSound) : e.IsSound where
  disjoint b ht hn := by
    obtain ⟨a, ha, hab⟩ := exists_of_mem_right h.terminals ht
    exact hd.disjoint ha ((rel_mem hR hab h.nonterminals).2 hn)
  start_mem := (rel_mem hR h.start h.nonterminals).1 hd.start_mem
  binary_mem s hs := by
    obtain ⟨r, hr, hleft, hfirst, hsecond⟩ := exists_of_mem_right h.binary hs
    obtain ⟨hl, hf, hs⟩ := hd.binary_mem r hr
    exact ⟨(rel_mem hR hleft h.nonterminals).1 hl, (rel_mem hR hfirst h.nonterminals).1 hf,
      (rel_mem hR hsecond h.nonterminals).1 hs⟩
  unit_mem s hs := by
    obtain ⟨r, hr, hleft, hright⟩ := exists_of_mem_right h.unit hs
    obtain ⟨hl, ht⟩ := hd.unit_mem r hr
    exact ⟨(rel_mem hR hleft h.nonterminals).1 hl, (rel_mem hR hright h.terminals).1 ht⟩

/-- Rules are related symbol by symbol. -/
structure Rule.Related (R : α → β → Prop) (r : Rule α) (s : Rule β) : Prop where
  left : R r.left s.left
  right : Forall₂ R r.right s.right

namespace Grammar

variable [DecidableEq α] [DecidableEq β] {g : Grammar α} {h : Grammar β}

/-- Grammars are related when their symbols are, with the right sides of each left side. -/
structure Related (R : α → β → Prop) (g : Grammar α) (h : Grammar β) : Prop where
  biUnique : BiUnique R
  start : R g.start h.start
  terminals : Forall₂ R g.terminals h.terminals
  nonterminals : Forall₂ R g.nonterminals h.nonterminals
  unit : ∀ {a b}, R a b → Forall₂ R (g.unitRules.get a) (h.unitRules.get b)
  binary : ∀ {a b}, R a b → Forall₂ (PairRel R R) (g.binaryRules.get a) (h.binaryRules.get b)

theorem related_ofDeclarations (hR : BiUnique R) {d : Declarations α} {e : Declarations β}
    (h : d.Related R e) : (ofDeclarations d).Related R (ofDeclarations e) where
  biUnique := hR
  start := h.start
  terminals := FirstSeen.forall₂_ofList hR h.terminals
  nonterminals := FirstSeen.forall₂_ofList hR h.nonterminals
  unit hab := Groups.forall₂_get_ofPairs hR hR h.unit hab
  binary hab := Groups.forall₂_get_ofPairs hR (biUnique_pairRel hR hR) h.binary hab

/-- The start symbol comes first among the nonterminals of both grammars or of neither. -/
theorem Related.head?_eq_start_iff (hg : g.Related R h) :
    g.nonterminals.head? = some g.start ↔ h.nonterminals.head? = some h.start := by
  have hhead := rel_head? hg.nonterminals
  generalize g.nonterminals.head? = a at hhead ⊢
  generalize h.nonterminals.head? = b at hhead ⊢
  cases hhead with
  | none => exact iff_of_false nofun nofun
  | some hab =>
    rw [Option.some.injEq, Option.some.injEq]
    exact ⟨fun e => hg.biUnique.2 (e ▸ hab) hg.start, fun e => hg.biUnique.1 (e ▸ hab) hg.start⟩

theorem Related.isTerminal_eq (hg : g.Related R h) {a : α} {b : β} (hab : R a b) :
    g.isTerminal a = h.isTerminal b :=
  decide_eq_decide.2 (rel_mem hg.biUnique hab hg.terminals)

/-- The rules of related grammars are related in their order. -/
theorem Related.rules (hg : g.Related R h) : Forall₂ (Rule.Related R) g.rules h.rules := by
  refine rel_flatMap hg.nonterminals fun a b hab => rel_append ?_ ?_
  · exact rel_map (fun _ _ ht => ⟨hab, .cons ht .nil⟩) (hg.unit hab)
  · exact rel_map (fun _ _ hp => ⟨hab, .cons hp.1 (.cons hp.2 .nil)⟩) (hg.binary hab)

/-- Related grammars whose left sides appeared in the same order. -/
structure RelatedInOrder (R : α → β → Prop) (g : Grammar α) (h : Grammar β) : Prop
    extends g.Related R h where
  unitKeys : Forall₂ R g.unitRules.keys h.unitRules.keys
  binaryKeys : Forall₂ R g.binaryRules.keys h.binaryRules.keys

theorem relatedInOrder_ofDeclarations (hR : BiUnique R) {d : Declarations α} {e : Declarations β}
    (h : d.Related R e) : (ofDeclarations d).RelatedInOrder R (ofDeclarations e) where
  toRelated := related_ofDeclarations hR h
  unitKeys := Groups.forall₂_keys_ofPairs hR h.unit
  binaryKeys := Groups.forall₂_keys_ofPairs hR h.binary

/-- Related terminals are expanded to from related left sides. -/
theorem RelatedInOrder.unitLefts (hg : g.RelatedInOrder R h) {t : α} {u : β} (htu : R t u) :
    Forall₂ R (g.unitLefts t) (h.unitLefts u) :=
  forall₂_filter_mem hg.biUnique hg.unitKeys (fun _ _ => hg.unit) htu

/-- Related pairs are expanded to from related left sides. -/
theorem RelatedInOrder.binaryLefts (hg : g.RelatedInOrder R h) {a₁ a₂ : α} {b₁ b₂ : β}
    (h₁ : R a₁ b₁) (h₂ : R a₂ b₂) : Forall₂ R (g.binaryLefts a₁ a₂) (h.binaryLefts b₁ b₂) := by
  have hpair : PairRel R R (a₁, a₂) (b₁, b₂) := ⟨h₁, h₂⟩
  exact forall₂_filter_mem (biUnique_pairRel hg.biUnique hg.biUnique) hg.binaryKeys
    (fun _ _ => hg.binary) hpair

/-- A terminal that some rule expands to is related to a terminal of the other grammar. -/
theorem RelatedInOrder.exists_right (hg : g.RelatedInOrder R h) {a t : α}
    (ha : a ∈ g.unitLefts t) : ∃ u, R t u := by
  obtain ⟨hkey, ht⟩ := mem_filter.1 ha
  obtain ⟨b, -, hab⟩ := exists_of_mem_left hg.unitKeys hkey
  obtain ⟨u, -, htu⟩ := exists_of_mem_left (hg.unit hab) (of_decide_eq_true ht)
  exact ⟨u, htu⟩

theorem RelatedInOrder.exists_left (hg : g.RelatedInOrder R h) {b u : β}
    (hb : b ∈ h.unitLefts u) : ∃ t, R t u := by
  obtain ⟨hkey, hu⟩ := mem_filter.1 hb
  obtain ⟨a, -, hab⟩ := exists_of_mem_right hg.unitKeys hkey
  obtain ⟨t, -, htu⟩ := exists_of_mem_right (hg.unit hab) (of_decide_eq_true hu)
  exact ⟨t, htu⟩

/-- A pair that some rule expands to is related to a pair of the other grammar. -/
theorem RelatedInOrder.exists_rights (hg : g.RelatedInOrder R h) {a b c : α}
    (ha : a ∈ g.binaryLefts b c) : ∃ b' c', R b b' ∧ R c c' := by
  obtain ⟨hkey, hbc⟩ := mem_filter.1 ha
  obtain ⟨a', -, ha'⟩ := exists_of_mem_left hg.binaryKeys hkey
  obtain ⟨p, -, hb, hc⟩ := exists_of_mem_left (hg.binary ha') (of_decide_eq_true hbc)
  exact ⟨p.1, p.2, hb, hc⟩

theorem RelatedInOrder.exists_lefts (hg : g.RelatedInOrder R h) {a b c : β}
    (ha : a ∈ h.binaryLefts b c) : ∃ b' c', R b' b ∧ R c' c := by
  obtain ⟨hkey, hbc⟩ := mem_filter.1 ha
  obtain ⟨a', -, ha'⟩ := exists_of_mem_right hg.binaryKeys hkey
  obtain ⟨p, -, hb, hc⟩ := exists_of_mem_right (hg.binary ha') (of_decide_eq_true hbc)
  exact ⟨p.1, p.2, hb, hc⟩

/-- What a parser reads of two grammars is related: the start symbols, and for related right
sides the left sides in the order in which the grammars list them. A symbol that a unit rule
expands to is related to one of the other grammar. -/
structure LeftsRelated (R : α → β → Prop) (g : Grammar α) (h : Grammar β) : Prop where
  start : R g.start h.start
  unitLefts : ∀ {t u}, R t u → Forall₂ R (g.unitLefts t) (h.unitLefts u)
  binaryLefts : ∀ {a₁ a₂ b₁ b₂}, R a₁ b₁ → R a₂ b₂ →
    Forall₂ R (g.binaryLefts a₁ a₂) (h.binaryLefts b₁ b₂)
  exists_right : ∀ {a t}, a ∈ g.unitLefts t → ∃ u, R t u
  exists_left : ∀ {b u}, b ∈ h.unitLefts u → ∃ t, R t u

theorem RelatedInOrder.leftsRelated (hg : g.RelatedInOrder R h) : g.LeftsRelated R h where
  start := hg.start
  unitLefts := hg.unitLefts
  binaryLefts := hg.binaryLefts
  exists_right := hg.exists_right
  exists_left := hg.exists_left

end Grammar

end ChartParsing
