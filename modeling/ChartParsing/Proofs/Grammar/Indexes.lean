import ChartParsing.Grammar.Derivation
import Mathlib.Data.List.Basic

/-!
# Indexes of a grammar

A grammar answers a parser's questions from indexes that were built once. Here the indexes
are read back from the rules: the symbols that expand to a terminal, or to a pair, are the
left sides that have such a rule, in the order in which the left sides first appeared
(`unitParents_ofDeclarations`, `binaryParents_ofDeclarations`). `Grammar.IsIndexed` collects
what a chart needs to know of a grammar, and `isIndexed_ofDeclarations` gives it for every
grammar whose unit rules expand to declared terminals.
-/

namespace ChartParsing

namespace FirstSeen

variable {α : Type} [DecidableEq α]

theorem addAll_of_fresh {seen as : List α} (hn : as.Nodup) (hf : ∀ a ∈ as, a ∉ seen) :
    addAll seen as = seen ++ as := by
  induction as generalizing seen with
  | nil => simp [addAll]
  | cons a as ih =>
    obtain ⟨ha, hn⟩ := List.nodup_cons.1 hn
    have hs : add seen a = seen ++ [a] := add_of_not_mem (hf a List.mem_cons_self)
    have hrest : ∀ b ∈ as, b ∉ seen ++ [a] := by
      intro b hb hm
      rcases List.mem_append.1 hm with hm | hm
      · exact hf b (List.mem_cons_of_mem a hb) hm
      · exact ha (List.mem_singleton.1 hm ▸ hb)
    rw [addAll_cons, hs, ih hn hrest]
    simp

/-- A list without repetitions is in order of first appearance. -/
theorem ofList_of_nodup {as : List α} (h : as.Nodup) : ofList as = as := by
  rw [ofList, addAll_of_fresh h (by simp), List.nil_append]

end FirstSeen

namespace Groups

variable {κ ν : Type} [DecidableEq κ] [DecidableEq ν]

/-- The values of a key are those given with it, in order of first appearance. -/
theorem get_ofPairs (pairs : List (κ × ν)) (k : κ) :
    (ofPairs pairs).get k = FirstSeen.ofList ((pairs.filter fun p => p.1 = k).map (·.2)) := by
  have h : ∀ (pairs : List (κ × ν)) (g : Groups κ ν), (pairs.foldl add g).get k =
      FirstSeen.addAll (g.get k) ((pairs.filter fun p => p.1 = k).map (·.2)) := by
    intro pairs
    induction pairs with
    | nil => exact fun _ => rfl
    | cons p pairs ih =>
      intro g
      rw [List.foldl_cons, ih, get_add]
      by_cases hk : k = p.1
      · subst hk
        simp [FirstSeen.addAll]
      · simp [hk, Ne.symm hk]
  exact h pairs empty

omit [DecidableEq ν] in
theorem keys_addEntry [DecidableEq ν] (k : κ) (v : ν) (es : List (κ × List ν)) :
    (addEntry k v es).map (·.1) = FirstSeen.add (es.map (·.1)) k := by
  induction es with
  | nil => simp [addEntry, FirstSeen.add]
  | cons e es ih =>
    obtain ⟨key, vs⟩ := e
    by_cases h : key = k
    · simp [addEntry, FirstSeen.add, h]
    · simp only [addEntry, if_neg h, List.map_cons, ih]
      by_cases hm : k ∈ es.map (·.1)
      · rw [FirstSeen.add_of_mem hm, FirstSeen.add_of_mem (List.mem_cons_of_mem key hm)]
      · have hm' : k ∉ key :: es.map (·.1) := by
          simpa [Ne.symm h] using hm
        rw [FirstSeen.add_of_not_mem hm, FirstSeen.add_of_not_mem hm', List.cons_append]

/-- The keys stand in order of first appearance. -/
theorem keys_ofPairs (pairs : List (κ × ν)) :
    (ofPairs pairs).keys = FirstSeen.ofList (pairs.map (·.1)) := by
  have h : ∀ (pairs : List (κ × ν)) (g : Groups κ ν),
      (pairs.foldl add g).keys = FirstSeen.addAll g.keys (pairs.map (·.1)) := by
    intro pairs
    induction pairs with
    | nil => exact fun _ => rfl
    | cons p pairs ih =>
      intro g
      have hp : (g.add p).keys = FirstSeen.add g.keys p.1 := keys_addEntry p.1 p.2 g.entries
      rw [List.foldl_cons, ih, hp]
      rfl
  exact h pairs empty

theorem nodup_keys_ofPairs (pairs : List (κ × ν)) : (ofPairs pairs).keys.Nodup := by
  rw [keys_ofPairs]
  exact FirstSeen.nodup_ofList _

omit [DecidableEq ν] in
/-- A key with a value is listed among the keys. -/
theorem mem_keys_of_mem_get {g : Groups κ ν} {k : κ} {v : ν} (h : v ∈ g.get k) : k ∈ g.keys := by
  obtain ⟨es⟩ := g
  induction es with
  | nil => simp [get, valuesOf] at h
  | cons e es ih =>
    obtain ⟨key, vs⟩ := e
    by_cases hk : key = k
    · simp [keys, hk]
    · simp only [get, valuesOf, if_neg hk] at h
      exact List.mem_cons_of_mem key (ih h)

omit [DecidableEq ν] in
theorem pairs_eq_flatMap_keys {g : Groups κ ν} (h : g.keys.Nodup) :
    g.pairs = g.keys.flatMap fun k => (g.get k).map fun v => (k, v) := by
  obtain ⟨es⟩ := g
  induction es with
  | nil => rfl
  | cons e es ih =>
    obtain ⟨key, vs⟩ := e
    obtain ⟨hk, hn⟩ := List.nodup_cons.1 (show (key :: es.map (·.1)).Nodup from h)
    have hrest : ∀ k ∈ es.map (·.1), valuesOf k ((key, vs) :: es) = valuesOf k es := by
      intro k hm
      have : key ≠ k := fun e => hk (e ▸ hm)
      simp [valuesOf, this]
    have ih := ih hn
    simp only [pairs, keys, get] at ih ⊢
    rw [List.flatMap_cons, ih, List.map_cons, List.flatMap_cons]
    congr 1
    · simp [valuesOf]
    · exact List.flatMap_congr fun k hm => by rw [hrest k hm]

omit [DecidableEq κ] in
theorem map_fst_filter_row (k : κ) (v : ν) {vs : List ν} (h : vs.Nodup) :
    ((vs.map fun w => (k, w)).filter fun p => p.2 = v).map (·.1) =
      if v ∈ vs then [k] else [] := by
  induction vs with
  | nil => rfl
  | cons w vs ih =>
    obtain ⟨hw, hn⟩ := List.nodup_cons.1 h
    by_cases he : w = v
    · subst he
      have : ((vs.map fun u => (k, u)).filter fun p => p.2 = w).map (·.1) = [] := by
        rw [ih hn, if_neg hw]
      simpa using this
    · have hv : v ≠ w := Ne.symm he
      simpa [he, hv] using ih hn

/-- The keys of a value, in the order in which the pairs list them, are the keys that have
the value, in their own order. -/
theorem map_fst_filter_pairs {g : Groups κ ν} (hk : g.keys.Nodup) (hv : ∀ k, (g.get k).Nodup)
    (v : ν) : (g.pairs.filter fun p => p.2 = v).map (·.1) =
      g.keys.filter fun k => decide (v ∈ g.get k) := by
  rw [pairs_eq_flatMap_keys hk, List.filter_flatMap, List.map_flatMap]
  induction g.keys with
  | nil => rfl
  | cons k ks ih =>
    rw [List.flatMap_cons, ih, map_fst_filter_row k v (hv k), List.filter_cons]
    by_cases h : v ∈ g.get k <;> simp [h]

/-- An index from the values of grouped pairs back to their keys. -/
theorem get_inverse_ofPairs (pairs : List (κ × ν)) (v : ν) :
    (ofPairs ((ofPairs pairs).pairs.map fun p => (p.2, p.1))).get v =
      (ofPairs pairs).keys.filter fun k => decide (v ∈ (ofPairs pairs).get k) := by
  have hk := nodup_keys_ofPairs pairs
  have hf := map_fst_filter_pairs hk (nodup_get_ofPairs pairs) v
  rw [get_ofPairs, List.filter_map, List.map_map]
  have hs : ((ofPairs pairs).pairs.filter
      ((fun q : ν × κ => decide (q.1 = v)) ∘ fun p => (p.2, p.1))).map
        ((fun q : ν × κ => q.2) ∘ fun p => (p.2, p.1)) =
      (ofPairs pairs).keys.filter fun k => decide (v ∈ (ofPairs pairs).get k) := hf
  rw [hs, FirstSeen.ofList_of_nodup (List.Pairwise.filter _ hk)]

end Groups

namespace Grammar

variable {σ : Type} [DecidableEq σ]

/-- The left sides of the unit rules that expand to a terminal, in order of first appearance. -/
def unitLefts (g : Grammar σ) (t : σ) : List σ :=
  g.unitRules.keys.filter fun a => decide (t ∈ g.unitRules.get a)

/-- The left sides of the binary rules that expand to a pair, in order of first appearance. -/
def binaryLefts (g : Grammar σ) (b c : σ) : List σ :=
  g.binaryRules.keys.filter fun a => decide ((b, c) ∈ g.binaryRules.get a)

/-- The indexes of a grammar say what its rules say, and its unit rules expand to terminals. -/
structure IsIndexed (g : Grammar σ) : Prop where
  nodup_unitLefts : ∀ t, (g.unitLefts t).Nodup
  nodup_binaryLefts : ∀ b c, (g.binaryLefts b c).Nodup
  unitParents_eq : ∀ t, g.unitParents t = g.unitLefts t
  binaryParents_eq : ∀ b c, g.binaryParents b c = g.binaryLefts b c
  mem_successorsAfter_iff : ∀ b c, c ∈ g.successorsAfter b ↔ ∃ a, (b, c) ∈ g.binaryRules.get a
  isTerminal_of_mem : ∀ a t, t ∈ g.unitRules.get a → g.isTerminal t = true

theorem mem_unitLefts {g : Grammar σ} {a t : σ} : a ∈ g.unitLefts t ↔ t ∈ g.unitRules.get a := by
  rw [unitLefts, List.mem_filter, decide_eq_true_eq]
  exact ⟨And.right, fun h => ⟨Groups.mem_keys_of_mem_get h, h⟩⟩

theorem mem_binaryLefts {g : Grammar σ} {a b c : σ} :
    a ∈ g.binaryLefts b c ↔ (b, c) ∈ g.binaryRules.get a := by
  rw [binaryLefts, List.mem_filter, decide_eq_true_eq]
  exact ⟨And.right, fun h => ⟨Groups.mem_keys_of_mem_get h, h⟩⟩

theorem unitParents_ofDeclarations (d : Declarations σ) (t : σ) :
    (ofDeclarations d).unitParents t = (ofDeclarations d).unitLefts t :=
  Groups.get_inverse_ofPairs d.unit t

theorem binaryParents_ofDeclarations (d : Declarations σ) (b c : σ) :
    (ofDeclarations d).binaryParents b c = (ofDeclarations d).binaryLefts b c := by
  -- the two sides decide membership of a pair by different instances
  have h := Groups.get_inverse_ofPairs d.binary (b, c)
  exact h.trans (List.filter_congr fun a _ => decide_eq_decide.2 Iff.rfl)

/-- The left sides that expand to a terminal stand in the order in which the left sides of
the unit rules first appeared. -/
theorem unitLefts_ofDeclarations (d : Declarations σ) (t : σ) :
    (ofDeclarations d).unitLefts t =
      (FirstSeen.ofList (d.unit.map (·.1))).filter fun a => decide ((a, t) ∈ d.unit) := by
  have hkeys : (ofDeclarations d).unitRules.keys = FirstSeen.ofList (d.unit.map (·.1)) :=
    Groups.keys_ofPairs d.unit
  rw [unitLefts, hkeys]
  exact List.filter_congr fun a _ => decide_eq_decide.2 mem_get_unitRules

/-- The left sides that expand to a pair stand in the order in which the left sides of the
binary rules first appeared. -/
theorem binaryLefts_ofDeclarations (d : Declarations σ) (b c : σ) :
    (ofDeclarations d).binaryLefts b c =
      (FirstSeen.ofList (d.binary.map (·.1))).filter fun a => decide ((a, b, c) ∈ d.binary) := by
  have hkeys : (ofDeclarations d).binaryRules.keys = FirstSeen.ofList (d.binary.map (·.1)) :=
    Groups.keys_ofPairs d.binary
  rw [binaryLefts, hkeys]
  exact List.filter_congr fun a _ => decide_eq_decide.2 mem_get_binaryRules

theorem mem_terminals_ofDeclarations {d : Declarations σ} {t : σ} :
    (ofDeclarations d).isTerminal t = true ↔ t ∈ d.terminals := by
  rw [isTerminal, decide_eq_true_eq]
  exact FirstSeen.mem_ofList

/-- Declarations whose unit rules expand to terminals give a grammar with sound indexes. -/
theorem isIndexed_ofDeclarations {d : Declarations σ}
    (h : ∀ a t, (a, t) ∈ d.unit → t ∈ d.terminals) : (ofDeclarations d).IsIndexed where
  nodup_unitLefts _ := List.Pairwise.filter _ (Groups.nodup_keys_ofPairs d.unit)
  nodup_binaryLefts _ _ := List.Pairwise.filter _ (Groups.nodup_keys_ofPairs d.binary)
  unitParents_eq := unitParents_ofDeclarations d
  binaryParents_eq := binaryParents_ofDeclarations d
  mem_successorsAfter_iff b c := by
    simp only [mem_successorsAfter, mem_get_binaryRules]
  isTerminal_of_mem a t ht := mem_terminals_ofDeclarations.2 (h a t (mem_get_unitRules.1 ht))

end Grammar

end ChartParsing
