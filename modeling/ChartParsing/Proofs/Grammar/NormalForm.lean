import ChartParsing.Proofs.Grammar.Indexes

/-!
# Grammars in normal form

In sound declarations no symbol is both terminal and nonterminal, and every rule expands a
nonterminal to a terminal or to two nonterminals. The grammar of sound declarations is sound,
and so each of its rules has one of the two forms (`Grammar.IsSound.right_of_mem_rules`).
-/

namespace ChartParsing

variable {σ : Type}

/-- Declarations of disjoint symbols, with rules between them. -/
structure Declarations.IsSound (d : Declarations σ) : Prop where
  disjoint : d.terminals.Disjoint d.nonterminals
  start_mem : d.start ∈ d.nonterminals
  binary_mem : ∀ r ∈ d.binary,
    r.1 ∈ d.nonterminals ∧ r.2.1 ∈ d.nonterminals ∧ r.2.2 ∈ d.nonterminals
  unit_mem : ∀ r ∈ d.unit, r.1 ∈ d.nonterminals ∧ r.2 ∈ d.terminals

/-- A key of grouped pairs is the first part of a pair, and of no others. -/
theorem Groups.mem_keys_ofPairs {κ ν : Type} [DecidableEq κ] [DecidableEq ν]
    {pairs : List (κ × ν)} {k : κ} : k ∈ (ofPairs pairs).keys ↔ ∃ v, (k, v) ∈ pairs := by
  rw [keys_ofPairs, FirstSeen.mem_ofList, List.mem_map]
  constructor
  · rintro ⟨p, hp, rfl⟩
    exact ⟨p.2, hp⟩
  · rintro ⟨v, hv⟩
    exact ⟨(k, v), hv, rfl⟩

namespace Grammar

variable [DecidableEq σ] {g : Grammar σ}

/-- The rules of a grammar in Chomsky normal form expand nonterminals to a terminal or to two
nonterminals. -/
structure IsSound (g : Grammar σ) : Prop where
  disjoint : g.terminals.Disjoint g.nonterminals
  start_mem : g.start ∈ g.nonterminals
  unit_left : ∀ a ∈ g.unitRules.keys, a ∈ g.nonterminals
  unit_right : ∀ a, ∀ t ∈ g.unitRules.get a, t ∈ g.terminals
  binary_left : ∀ a ∈ g.binaryRules.keys, a ∈ g.nonterminals
  binary_right : ∀ a, ∀ p ∈ g.binaryRules.get a, p.1 ∈ g.nonterminals ∧ p.2 ∈ g.nonterminals

/-- Sound declarations give a sound grammar. -/
theorem isSound_ofDeclarations {d : Declarations σ} (h : d.IsSound) :
    (ofDeclarations d).IsSound where
  disjoint _ ht hn := h.disjoint (FirstSeen.mem_ofList.1 ht) (FirstSeen.mem_ofList.1 hn)
  start_mem := FirstSeen.mem_ofList.2 h.start_mem
  unit_left a ha := by
    obtain ⟨t, ht⟩ := Groups.mem_keys_ofPairs.1 ha
    exact FirstSeen.mem_ofList.2 (h.unit_mem _ ht).1
  unit_right a t ht := FirstSeen.mem_ofList.2 (h.unit_mem _ (mem_get_unitRules.1 ht)).2
  binary_left a ha := by
    obtain ⟨p, hp⟩ := Groups.mem_keys_ofPairs.1 ha
    exact FirstSeen.mem_ofList.2 (h.binary_mem _ hp).1
  binary_right a p hp := by
    obtain ⟨-, hfirst, hsecond⟩ := h.binary_mem _ (mem_get_binaryRules.1 hp)
    exact ⟨FirstSeen.mem_ofList.2 hfirst, FirstSeen.mem_ofList.2 hsecond⟩

theorem mem_rules {r : Rule σ} : r ∈ g.rules ↔ r.left ∈ g.nonterminals ∧
    ((∃ t ∈ g.unitRules.get r.left, r.right = [t]) ∨
      ∃ p ∈ g.binaryRules.get r.left, r.right = [p.1, p.2]) := by
  obtain ⟨left, right⟩ := r
  simp only [rules, rulesFor, List.mem_flatMap, List.mem_append, List.mem_map, Rule.mk.injEq]
  constructor
  · rintro ⟨a, ha, ⟨t, ht, rfl, rfl⟩ | ⟨p, hp, rfl, rfl⟩⟩
    · exact ⟨ha, .inl ⟨t, ht, rfl⟩⟩
    · exact ⟨ha, .inr ⟨p, hp, rfl⟩⟩
  · rintro ⟨ha, ⟨t, ht, rfl⟩ | ⟨p, hp, rfl⟩⟩
    · exact ⟨left, ha, .inl ⟨t, ht, rfl, rfl⟩⟩
    · exact ⟨left, ha, .inr ⟨p, hp, rfl, rfl⟩⟩

/-- A rule of a sound grammar has a terminal or two nonterminals on its right side. -/
theorem IsSound.right_of_mem_rules (h : g.IsSound) {r : Rule σ} (hr : r ∈ g.rules) :
    (∃ t ∈ g.terminals, r.right = [t]) ∨
      ∃ b ∈ g.nonterminals, ∃ c ∈ g.nonterminals, r.right = [b, c] := by
  rcases (mem_rules.1 hr).2 with ⟨t, ht, he⟩ | ⟨p, hp, he⟩
  · exact .inl ⟨t, h.unit_right _ t ht, he⟩
  · obtain ⟨hb, hc⟩ := h.binary_right _ p hp
    exact .inr ⟨p.1, hb, p.2, hc, he⟩

end Grammar

end ChartParsing
