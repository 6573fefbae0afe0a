import ChartParsing.Proofs.Grammar.Acceptance
import Mathlib.Data.Finset.Card
import Mathlib.Data.List.Nodup

/-!
# Queries and listings are inverse to the rules

`Grammar.AnswersFrom` says what the queries of a grammar answer and what its listing lists when
its rules are given by name: the given rules and nothing else, the parents in the order in which
the left sides first appeared, and every distinct rule once. A grammar that is built of a
description answers so from the rules of the description (`Grammar.answersFrom_of_build`), which
may stand in any order and be given more than once.
-/

namespace ChartParsing

/-- A list that is put together from blocks has no repetitions when each block has none and
every element says which block it stands in. -/
theorem nodup_flatMap_of_key {α β : Type} {as : List α} {f : α → List β} (key : β → α)
    (has : as.Nodup) (hf : ∀ a ∈ as, (f a).Nodup) (hkey : ∀ a, ∀ b ∈ f a, key b = a) :
    (as.flatMap f).Nodup := by
  refine List.nodup_flatMap.2 ⟨hf, has.imp fun {a a'} hne => ?_⟩
  intro b hb hb'
  exact hne ((hkey a b hb).symm.trans (hkey a' b hb'))

namespace Groups

variable {κ ν : Type} [DecidableEq κ] [DecidableEq ν] (pairs : List (κ × ν))

theorem nodup_pairs_ofPairs : (ofPairs pairs).pairs.Nodup := by
  rw [pairs_eq_flatMap_keys (nodup_keys_ofPairs pairs)]
  refine nodup_flatMap_of_key Prod.fst (nodup_keys_ofPairs pairs) (fun k _ => ?_) ?_
  · exact (nodup_get_ofPairs pairs k).map fun v w h => (Prod.mk.inj h).2
  · intro k p hp
    obtain ⟨v, -, rfl⟩ := List.mem_map.1 hp
    rfl

/-- Every distinct pair is counted once. -/
theorem size_ofPairs : (ofPairs pairs).size = pairs.toFinset.card := by
  rw [size, ← List.toFinset_card_of_nodup (nodup_pairs_ofPairs pairs)]
  congr 1
  ext p
  rw [List.mem_toFinset, List.mem_toFinset, mem_pairs_ofPairs]

end Groups

namespace Rule

variable {σ : Type}

/-- The unit rule of a pair. -/
def ofUnit (p : σ × σ) : Rule σ := ⟨p.1, [p.2]⟩

/-- The binary rule of a triple. -/
def ofBinary (p : σ × σ × σ) : Rule σ := ⟨p.1, [p.2.1, p.2.2]⟩

theorem ofUnit_injective : Function.Injective (ofUnit : σ × σ → Rule σ) := by
  intro p q h
  simpa [ofUnit, Prod.ext_iff] using h

theorem ofBinary_injective : Function.Injective (ofBinary : σ × σ × σ → Rule σ) := by
  intro p q h
  simpa [ofBinary, Prod.ext_iff] using h

theorem ofUnit_ne_ofBinary (p : σ × σ) (q : σ × σ × σ) : ofUnit p ≠ ofBinary q := by
  simp [ofUnit, ofBinary]

/-- Lists of unit rules and of binary rules without repetitions make one. -/
theorem nodup_append {ps : List (σ × σ)} {qs : List (σ × σ × σ)} (hp : ps.Nodup)
    (hq : qs.Nodup) : (ps.map ofUnit ++ qs.map ofBinary).Nodup := by
  refine List.nodup_append'.2 ⟨hp.map ofUnit_injective, hq.map ofBinary_injective, ?_⟩
  intro r hr hr'
  obtain ⟨p, -, rfl⟩ := List.mem_map.1 hr
  obtain ⟨q, -, he⟩ := List.mem_map.1 hr'
  exact ofUnit_ne_ofBinary p q he.symm

end Rule

namespace Grammar

section Rules

variable {σ : Type} [DecidableEq σ] {d : Declarations σ} {r : Rule σ}

theorem rulesFor_eq (g : Grammar σ) (a : σ) : g.rulesFor a =
    ((g.unitRules.get a).map (a, ·)).map Rule.ofUnit ++
      ((g.binaryRules.get a).map (a, ·)).map Rule.ofBinary := by
  rw [List.map_map, List.map_map]
  rfl

/-- Every rule is listed once. -/
theorem nodup_rules_ofDeclarations (d : Declarations σ) : (ofDeclarations d).rules.Nodup := by
  refine nodup_flatMap_of_key Rule.left (FirstSeen.nodup_ofList _) (fun a _ => ?_) ?_
  · rw [rulesFor_eq]
    exact Rule.nodup_append
      ((Groups.nodup_get_ofPairs d.unit a).map fun _ _ h => (Prod.mk.inj h).2)
      ((Groups.nodup_get_ofPairs d.binary a).map fun _ _ h => (Prod.mk.inj h).2)
  · intro a r hr
    rcases List.mem_append.1 hr with hr | hr
    · obtain ⟨t, -, rfl⟩ := List.mem_map.1 hr
      rfl
    · obtain ⟨p, -, rfl⟩ := List.mem_map.1 hr
      rfl

/-- The given rules are listed, and no others. -/
theorem mem_rules_ofDeclarations (h : d.IsSound) : r ∈ (ofDeclarations d).rules ↔
    (∃ p ∈ d.unit, r = .ofUnit p) ∨ ∃ p ∈ d.binary, r = .ofBinary p := by
  obtain ⟨left, right⟩ := r
  simp only [mem_rules, mem_get_unitRules, mem_get_binaryRules, Rule.ofUnit, Rule.ofBinary,
    Rule.mk.injEq]
  constructor
  · rintro ⟨-, ⟨t, ht, rfl⟩ | ⟨p, hp, rfl⟩⟩
    · exact .inl ⟨(left, t), ht, rfl, rfl⟩
    · exact .inr ⟨(left, p), hp, rfl, rfl⟩
  · rintro (⟨p, hp, rfl, rfl⟩ | ⟨p, hp, rfl, rfl⟩)
    · exact ⟨FirstSeen.mem_ofList.2 (h.unit_mem p hp).1, .inl ⟨p.2, hp, rfl⟩⟩
    · exact ⟨FirstSeen.mem_ofList.2 (h.binary_mem p hp).1, .inr ⟨p.2, hp, rfl⟩⟩

/-- The rules are those of the two rule maps, in another order. -/
theorem rules_perm (h : d.IsSound) : (ofDeclarations d).rules.Perm
    ((ofDeclarations d).unitRules.pairs.map Rule.ofUnit ++
      (ofDeclarations d).binaryRules.pairs.map Rule.ofBinary) := by
  have hnodup := Rule.nodup_append (Groups.nodup_pairs_ofPairs d.unit)
    (Groups.nodup_pairs_ofPairs d.binary)
  refine (List.perm_ext_iff_of_nodup (nodup_rules_ofDeclarations d) hnodup).2 fun r => ?_
  rw [mem_rules_ofDeclarations h, List.mem_append, List.mem_map, List.mem_map]
  simp only [Groups.mem_pairs_ofPairs, eq_comm]

/-- The size of a grammar is the number of the rules that are listed. -/
theorem length_rules_ofDeclarations (h : d.IsSound) :
    (ofDeclarations d).rules.length = (ofDeclarations d).size := by
  rw [(rules_perm h).length_eq, List.length_append, List.length_map, List.length_map]
  rfl

/-- The size of a grammar is the number of the distinct rules that were given. -/
theorem size_ofDeclarations (d : Declarations σ) :
    (ofDeclarations d).size = d.unit.toFinset.card + d.binary.toFinset.card :=
  congrArg₂ (· + ·) (Groups.size_ofPairs d.unit) (Groups.size_ofPairs d.binary)

end Rules

/-- What the queries of a grammar answer and what it lists, by handles, when its rules are
given by name. -/
structure AnswersFrom (g : Grammar Symbol) (names : NameTable) (unit : List (String × String))
    (binary : List (String × String × String)) : Prop where
  mem_unitParents : ∀ a t, a ∈ g.unitParents t ↔
    ∃ r ∈ unit, names.IsHandle r.1 a ∧ names.IsHandle r.2 t
  mem_successorsAfter : ∀ b c, c ∈ g.successorsAfter b ↔
    ∃ r ∈ binary, names.IsHandle r.2.1 b ∧ names.IsHandle r.2.2 c
  mem_binaryParents : ∀ a b c, a ∈ g.binaryParents b c ↔
    ∃ r ∈ binary, names.IsHandle r.1 a ∧ names.IsHandle r.2.1 b ∧ names.IsHandle r.2.2 c
  nodup_unitParents : ∀ t, (g.unitParents t).Nodup
  nodup_binaryParents : ∀ b c, (g.binaryParents b c).Nodup
  unitParents_in_order : ∀ s t, names.IsHandle s t → List.Forall₂ names.IsHandle
    ((FirstSeen.ofList (unit.map (·.1))).filter fun a => (a, s) ∈ unit) (g.unitParents t)
  binaryParents_in_order : ∀ s₁ s₂ b c, names.IsHandle s₁ b → names.IsHandle s₂ c →
    List.Forall₂ names.IsHandle
      ((FirstSeen.ofList (binary.map (·.1))).filter fun a => (a, s₁, s₂) ∈ binary)
      (g.binaryParents b c)
  binaryParents_ne_nil : ∀ b c, g.binaryParents b c ≠ [] ↔ c ∈ g.successorsAfter b
  nodup_rules : g.rules.Nodup
  rules : ∃ listed, List.Forall₂ (Rule.Related names.IsHandle) listed g.rules ∧ listed.Nodup ∧
    ∀ r, r ∈ listed ↔ (∃ p ∈ unit, r = .ofUnit p) ∨ ∃ p ∈ binary, r = .ofBinary p
  size_eq : g.size = g.rules.length
  size_eq_card : g.size = unit.toFinset.card + binary.toFinset.card

variable {names : NameTable} {c : Declarations String} {c' : Declarations Symbol}

/-- A grammar over handles answers from the declarations by name that it reads. -/
theorem answersFrom_of_isRead (h : c.IsSound) (hread : c.IsRead names c') :
    (ofDeclarations c').AnswersFrom names c.unit c.binary := by
  have hR := names.biUnique_isHandle
  have hsound : c'.IsSound := hread.isSound h
  have hrelated := relatedInOrder_ofDeclarations hR hread.related
  have hindexed := isIndexed_ofDeclarations fun a t ht => (hsound.unit_mem (a, t) ht).2
  have hunit : ∀ {p}, p ∈ c'.unit ↔ ∃ r ∈ c.unit, PairRel names.IsHandle names.IsHandle r p :=
    mem_right_iff (biUnique_pairRel hR hR) hread.related.unit
  have hbinary : ∀ {p}, p ∈ c'.binary ↔
      ∃ r ∈ c.binary, PairRel names.IsHandle (PairRel names.IsHandle names.IsHandle) r p :=
    mem_right_iff (biUnique_pairRel hR (biUnique_pairRel hR hR)) hread.related.binary
  have hsize : (ofDeclarations c').size = (ofDeclarations c').rules.length :=
    (length_rules_ofDeclarations hsound).symm
  exact {
    mem_unitParents := fun a t => mem_unitParents.trans hunit
    mem_successorsAfter := by
      intro b c
      rw [mem_successorsAfter]
      constructor
      · rintro ⟨a, ha⟩
        obtain ⟨r, hr, -, hb, hc⟩ := hbinary.1 ha
        exact ⟨r, hr, hb, hc⟩
      · rintro ⟨r, hr, hb, hc⟩
        obtain ⟨p, -, ha, -⟩ := exists_of_mem_left hread.related.binary hr
        exact ⟨p.1, hbinary.2 ⟨r, hr, ha, hb, hc⟩⟩
    mem_binaryParents := fun a b c => mem_binaryParents.trans hbinary
    nodup_unitParents := by
      intro t
      rw [hindexed.unitParents_eq]
      exact hindexed.nodup_unitLefts t
    nodup_binaryParents := by
      intro b c
      rw [hindexed.binaryParents_eq]
      exact hindexed.nodup_binaryLefts b c
    unitParents_in_order := by
      intro s t hs
      rw [hindexed.unitParents_eq, ← unitLefts_ofDeclarations]
      exact hrelated.unitLefts hs
    binaryParents_in_order := by
      intro s₁ s₂ b c h₁ h₂
      rw [hindexed.binaryParents_eq, ← binaryLefts_ofDeclarations]
      exact hrelated.binaryLefts h₁ h₂
    binaryParents_ne_nil := by
      intro b c
      constructor
      · intro hne
        obtain ⟨a, ha⟩ := List.exists_mem_of_ne_nil _ hne
        exact mem_successorsAfter.2 ⟨a, mem_binaryParents.1 ha⟩
      · intro hc
        obtain ⟨a, ha⟩ := mem_successorsAfter.1 hc
        exact List.ne_nil_of_mem (mem_binaryParents.2 ha)
    nodup_rules := nodup_rules_ofDeclarations c'
    rules := ⟨_, hrelated.rules, nodup_rules_ofDeclarations c,
      fun r => mem_rules_ofDeclarations h⟩
    size_eq := hsize
    size_eq_card := by
      rw [hsize, ← hrelated.rules.length_eq, length_rules_ofDeclarations h, size_ofDeclarations] }

/-- The grammar of a description answers from the rules of the description, over the table that
it was built with and over every later one. -/
theorem answersFrom_of_build {d : Description} {before after : NameTable} {g : Grammar Symbol}
    (h : d.build before = (.ok g, after)) (hn : after.GrowsTo names) :
    ∃ unit binary, List.Forall₂ Description.UnitSays d.unit unit ∧
      List.Forall₂ Description.BinarySays d.binary binary ∧ g.AnswersFrom names unit binary := by
  have hwell := Description.exists_build_iff.1 ⟨g, after, h⟩
  obtain ⟨c, hc⟩ := Description.exists_check_eq_ok_iff.2 hwell
  rw [Description.build_of_check hc] at h
  cases h
  obtain ⟨hmeans, hconsistent⟩ := Description.check_eq_ok_iff.1 hc
  exact ⟨c.unit, c.binary, hmeans.unit, hmeans.binary,
    answersFrom_of_isRead hconsistent.toIsSound ((c.settles_intern before).2 names hn)⟩

/-- A description that gives its one unit rule twice is asked over the table that it was built
with. -/
theorem repeated_answers : ∃ g after, Description.repeated.build .empty = (.ok g, after) ∧
    after.GrowsTo after ∧
    ∃ unit binary, List.Forall₂ Description.UnitSays Description.repeated.unit unit ∧
      List.Forall₂ Description.BinarySays Description.repeated.binary binary ∧
      g.AnswersFrom after unit binary := by
  have hb : Description.repeated.build .empty =
      (.ok (ofDeclarations ⟨0, [1, 1], [0], [(0, 0, 0)], [(0, 1), (0, 1)]⟩), ⟨["S", "a"]⟩) := rfl
  exact ⟨_, _, hb, .refl _, answersFrom_of_build hb (.refl _)⟩

end Grammar

end ChartParsing
