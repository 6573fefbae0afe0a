import ChartParsing.Proofs.Grammar.Building

/-!
# Which descriptions a grammar is built from

A grammar is built from the well-formed descriptions and from no others; every other
description whose rules are sequences is refused for a flaw, and the name table stays as it
was. What is built is sound (`Grammar.IsSound`) and holds, by the handles of the names, what
the description says and nothing else (`Description.IsHeldBy`).
-/

namespace ChartParsing

/-- A map that holds some pairs and no others, each once, in order of first appearance. -/
structure Groups.Collects {κ ν : Type} [DecidableEq κ] [DecidableEq ν] (g : Groups κ ν)
    (pairs : List (κ × ν)) : Prop where
  mem_get_iff : ∀ k v, v ∈ g.get k ↔ (k, v) ∈ pairs
  mem_keys_iff : ∀ k, k ∈ g.keys ↔ ∃ v, (k, v) ∈ pairs
  nodup_get : ∀ k, (g.get k).Nodup
  nodup_keys : g.keys.Nodup
  get_eq : ∀ k, g.get k = FirstSeen.ofList ((pairs.filter fun p => p.1 = k).map (·.2))
  keys_eq : g.keys = FirstSeen.ofList (pairs.map (·.1))

theorem Groups.collects_ofPairs {κ ν : Type} [DecidableEq κ] [DecidableEq ν]
    (pairs : List (κ × ν)) : (ofPairs pairs).Collects pairs where
  mem_get_iff _ _ := mem_get_ofPairs
  mem_keys_iff _ := mem_keys_ofPairs
  nodup_get := nodup_get_ofPairs pairs
  nodup_keys := nodup_keys_ofPairs pairs
  get_eq := get_ofPairs pairs
  keys_eq := keys_ofPairs pairs

/-- A symbol is the handle of a value that is a name. -/
def NameTable.Denotes (names : NameTable) (v : Value) (x : Symbol) : Prop :=
  ∃ s, v = .str s ∧ names.find? s = some x

/-- A pair of symbols has the handles of a unit rule that is given as a value. -/
def NameTable.DenotesUnit (names : NameTable) (rule : Value) (r : Symbol × Symbol) : Prop :=
  ∃ a t, rule.elements? = some [a, t] ∧ names.Denotes a r.1 ∧ names.Denotes t r.2

/-- A triple of symbols has the handles of a binary rule that is given as a value. -/
def NameTable.DenotesBinary (names : NameTable) (rule : Value)
    (r : Symbol × Symbol × Symbol) : Prop :=
  ∃ a b c, rule.elements? = some [a, b, c] ∧
    names.Denotes a r.1 ∧ names.Denotes b r.2.1 ∧ names.Denotes c r.2.2

namespace Description

variable {d : Description} {names : NameTable}

/-- A grammar holds, by handles, what a description says and nothing else. -/
structure IsHeldBy (d : Description) (g : Grammar Symbol) (names : NameTable) : Prop where
  start : names.Denotes d.start g.start
  terminals : ∃ xs, List.Forall₂ names.Denotes d.terminals xs ∧ g.terminals = FirstSeen.ofList xs
  nonterminals : ∃ xs, List.Forall₂ names.Denotes d.nonterminals xs ∧
    g.nonterminals = FirstSeen.ofList xs
  unit : ∃ rules, List.Forall₂ names.DenotesUnit d.unit rules ∧ g.unitRules.Collects rules
  binary : ∃ rules, List.Forall₂ names.DenotesBinary d.binary rules ∧ g.binaryRules.Collects rules

/-- Names with handles are denoted by these. -/
theorem forall₂_denotes {ss : List String} {xs : List Symbol}
    (h : List.Forall₂ (fun s x => names.find? s = some x) ss xs) :
    List.Forall₂ names.Denotes (ss.map .str) xs :=
  List.forall₂_map_left_iff.2 (h.imp fun s _ hs => ⟨s, rfl, hs⟩)

/-- The grammar of declarations that are read in a table holds what the description says. -/
theorem Says.isHeldBy {c : Declarations String} {c' : Declarations Symbol} (h : d.Says c)
    (hread : c.IsRead names c') : d.IsHeldBy (Grammar.ofDeclarations c') names where
  start := ⟨c.start, h.start, hread.start⟩
  terminals := ⟨c'.terminals, h.terminals ▸ forall₂_denotes hread.terminals, rfl⟩
  nonterminals := ⟨c'.nonterminals, h.nonterminals ▸ forall₂_denotes hread.nonterminals, rfl⟩
  unit := ⟨c'.unit, forall₂_comp h.unit hread.unit fun _ _ _ hr hx =>
    ⟨_, _, hr, ⟨_, rfl, hx.1⟩, _, rfl, hx.2⟩, Groups.collects_ofPairs c'.unit⟩
  binary := ⟨c'.binary, forall₂_comp h.binary hread.binary fun _ _ _ hr hx =>
    ⟨_, _, _, hr, ⟨_, rfl, hx.1⟩, ⟨_, rfl, hx.2.1⟩, _, rfl, hx.2.2⟩,
    Groups.collects_ofPairs c'.binary⟩

/-- The grammar is built exactly of the well-formed descriptions. -/
theorem exists_build_iff : (∃ g after, d.build names = (.ok g, after)) ↔ d.IsWellFormed := by
  rw [← exists_check_eq_ok_iff]
  constructor
  · rintro ⟨g, after, h⟩
    cases hc : d.check with
    | error e =>
      rw [build_of_check_error hc] at h
      cases h
    | ok c => exact ⟨c, rfl⟩
  · rintro ⟨c, hc⟩
    exact ⟨_, _, build_of_check hc⟩

/-- What is built of a description is sound and holds it. -/
theorem isSound_of_build {g : Grammar Symbol} {after : NameTable}
    (h : d.build names = (.ok g, after)) : g.IsSound ∧ d.IsHeldBy g after := by
  obtain ⟨c, hc⟩ := exists_check_eq_ok_iff.2 (exists_build_iff.1 ⟨g, after, h⟩)
  rw [build_of_check hc] at h
  cases h
  obtain ⟨hmeans, hconsistent⟩ := check_eq_ok_iff.1 hc
  have hread := (c.settles_intern names).2 _ (.refl _)
  exact ⟨Grammar.isSound_ofDeclarations (hread.isSound hconsistent.toIsSound),
    hmeans.isHeldBy hread⟩

/-- A grammar is built exactly of the well-formed descriptions, and is then sound and holds
what the description says; a description that is not well-formed is refused for a flaw, and no
name gets a handle. -/
theorem build_exactly_wellFormed (d : Description) (names : NameTable) (h : d.HasSequences) :
    ((∃ g after, d.build names = (.ok g, after)) ↔ d.IsWellFormed) ∧
    (¬d.IsWellFormed → ∃ flaw, d.build names = (.error (.flawed flaw), names)) ∧
    ∀ g after, d.build names = (.ok g, after) → g.IsSound ∧ d.IsHeldBy g after := by
  refine ⟨exists_build_iff, fun hnot => ?_, fun g after => isSound_of_build⟩
  cases hc : d.check with
  | ok c => exact absurd (exists_check_eq_ok_iff.1 ⟨c, hc⟩) hnot
  | error e =>
    obtain ⟨flaw, rfl⟩ := h.failsByFlaw_check e hc
    exact ⟨flaw, build_of_check_error hc⟩

/-- A description of one letter, which gives a symbol and a rule twice. -/
def repeated : Description where
  start := .str "S"
  terminals := [.str "a", .str "a"]
  nonterminals := [.str "S"]
  binary := [.tuple [.str "S", .str "S", .str "S"]]
  unit := [.tuple [.str "S", .str "a"], .str "Sa"]

theorem repeated_builds : repeated.HasSequences ∧
    ∃ g after, repeated.build .empty = (.ok g, after) ∧ g.IsSound ∧ repeated.IsHeldBy g after := by
  have hseq : repeated.HasSequences := by
    simp [HasSequences, repeated, Value.elements?]
  obtain ⟨-, -, hbuilt⟩ := build_exactly_wellFormed repeated .empty hseq
  have hb : repeated.build .empty =
      (.ok (Grammar.ofDeclarations ⟨0, [1, 1], [0], [(0, 0, 0)], [(0, 1), (0, 1)]⟩),
        ⟨["S", "a"]⟩) := rfl
  exact ⟨hseq, _, _, hb, hbuilt _ _ hb⟩

end Description

end ChartParsing
