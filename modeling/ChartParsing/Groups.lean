import ChartParsing.FirstSeen

/-!
# Values grouped under keys

A finite map from keys to lists of values. The keys stand in the order in which they were
first used, the values of a key in the order in which they were first added to it, both
without repetitions; a key that was never used has no values. `mem_get_ofPairs` says that
grouping loses and invents nothing.
-/

namespace ChartParsing

/-- Keys with their values, in order of first appearance. -/
structure Groups (κ ν : Type) where
  entries : List (κ × List ν)
deriving DecidableEq, Repr

namespace Groups

variable {κ ν : Type} [DecidableEq κ] [DecidableEq ν]

/-- The map without keys. -/
def empty : Groups κ ν := ⟨[]⟩

/-- Adds a value to the entry of its key, or a new entry at the end. -/
def addEntry (k : κ) (v : ν) : List (κ × List ν) → List (κ × List ν)
  | [] => [(k, [v])]
  | (key, vs) :: rest =>
    if key = k then (key, FirstSeen.add vs v) :: rest else (key, vs) :: addEntry k v rest

/-- Adds a value to the values of a key. -/
def add (g : Groups κ ν) (p : κ × ν) : Groups κ ν :=
  ⟨addEntry p.1 p.2 g.entries⟩

/-- Groups a list of pairs by their first parts. -/
def ofPairs (pairs : List (κ × ν)) : Groups κ ν :=
  pairs.foldl add empty

/-- The values of the first entry with a key. -/
def valuesOf (k : κ) : List (κ × List ν) → List ν
  | [] => []
  | (key, vs) :: rest => if key = k then vs else valuesOf k rest

/-- The values of a key. -/
def get (g : Groups κ ν) (k : κ) : List ν :=
  valuesOf k g.entries

omit [DecidableEq κ] [DecidableEq ν] in
/-- All pairs of a key and a value of it, in order. -/
def pairs (g : Groups κ ν) : List (κ × ν) :=
  g.entries.flatMap fun e => e.2.map fun v => (e.1, v)

omit [DecidableEq κ] [DecidableEq ν] in
/-- The keys in order. -/
def keys (g : Groups κ ν) : List κ :=
  g.entries.map (·.1)

omit [DecidableEq κ] [DecidableEq ν] in
/-- The number of pairs. -/
def size (g : Groups κ ν) : Nat :=
  g.pairs.length

theorem valuesOf_addEntry (k key : κ) (v : ν) (es : List (κ × List ν)) :
    valuesOf key (addEntry k v es) =
      if key = k then FirstSeen.add (valuesOf key es) v else valuesOf key es := by
  induction es with
  | nil =>
    by_cases h : key = k
    · simp [addEntry, valuesOf, h, FirstSeen.add]
    · simp [addEntry, valuesOf, h, Ne.symm h]
  | cons e es ih =>
    obtain ⟨key', vs⟩ := e
    by_cases hk : key' = k
    · subst hk
      by_cases h : key = key'
      · simp [addEntry, valuesOf, h]
      · simp [addEntry, valuesOf, h, Ne.symm h]
    · by_cases h : key' = key
      · subst h
        simp [addEntry, valuesOf, hk]
      · simp [addEntry, valuesOf, hk, h, ih]

theorem get_add (g : Groups κ ν) (p : κ × ν) (key : κ) :
    (g.add p).get key = if key = p.1 then FirstSeen.add (g.get key) p.2 else g.get key :=
  valuesOf_addEntry p.1 key p.2 g.entries

/-- A value stands under a key exactly when the pair was given. -/
theorem mem_get_ofPairs {pairs : List (κ × ν)} {k : κ} {v : ν} :
    v ∈ (ofPairs pairs).get k ↔ (k, v) ∈ pairs := by
  have h : ∀ (pairs : List (κ × ν)) (g : Groups κ ν),
      v ∈ (pairs.foldl add g).get k ↔ v ∈ g.get k ∨ (k, v) ∈ pairs := by
    intro pairs
    induction pairs with
    | nil => simp
    | cons p pairs ih =>
      intro g
      rw [List.foldl_cons, ih, get_add, List.mem_cons]
      by_cases hk : k = p.1
      · subst hk
        rw [if_pos rfl, FirstSeen.mem_add, or_assoc]
        simp [Prod.ext_iff]
      · have : (k, v) ≠ p := fun e => hk (congrArg Prod.fst e)
        simp [hk, this]
  rw [ofPairs, h pairs empty]
  simp [empty, get, valuesOf]

theorem nodup_get_ofPairs (pairs : List (κ × ν)) (k : κ) : ((ofPairs pairs).get k).Nodup := by
  have h : ∀ (pairs : List (κ × ν)) (g : Groups κ ν),
      (g.get k).Nodup → ((pairs.foldl add g).get k).Nodup := by
    intro pairs
    induction pairs with
    | nil => exact fun _ hg => hg
    | cons p pairs ih =>
      intro g hg
      apply ih
      rw [get_add]
      split
      · exact FirstSeen.nodup_add _ hg
      · exact hg
  exact h pairs empty List.nodup_nil

omit [DecidableEq κ] [DecidableEq ν] in
theorem mem_pairs_cons {e : κ × List ν} {es : List (κ × List ν)} {p : κ × ν} :
    p ∈ pairs ⟨e :: es⟩ ↔ (e.1 = p.1 ∧ p.2 ∈ e.2) ∨ p ∈ pairs ⟨es⟩ := by
  obtain ⟨k, v⟩ := p
  rw [pairs, List.flatMap_cons, List.mem_append]
  apply or_congr _ Iff.rfl
  simp only [List.mem_map, Prod.mk.injEq]
  exact ⟨fun ⟨_, hw, hk, hv⟩ => ⟨hk, hv ▸ hw⟩, fun ⟨hk, hv⟩ => ⟨v, hv, hk, rfl⟩⟩

theorem mem_pairs_addEntry {k : κ} {v : ν} {es : List (κ × List ν)} {p : κ × ν} :
    p ∈ pairs ⟨addEntry k v es⟩ ↔ p ∈ pairs ⟨es⟩ ∨ p = (k, v) := by
  induction es with
  | nil => simp [addEntry, pairs, Prod.ext_iff]
  | cons e es ih =>
    obtain ⟨key, vs⟩ := e
    by_cases h : key = k
    · subst h
      simp only [addEntry, if_true, mem_pairs_cons, FirstSeen.mem_add, Prod.ext_iff]
      constructor
      · rintro (⟨h1, h2 | h2⟩ | h2)
        · exact Or.inl (Or.inl ⟨h1, h2⟩)
        · exact Or.inr ⟨h1.symm, h2⟩
        · exact Or.inl (Or.inr h2)
      · rintro ((⟨h1, h2⟩ | h2) | ⟨h1, h2⟩)
        · exact Or.inl ⟨h1, Or.inl h2⟩
        · exact Or.inr h2
        · exact Or.inl ⟨h1.symm, Or.inr h2⟩
    · simp only [addEntry, if_neg h, mem_pairs_cons, ih, or_assoc]

/-- A pair is listed exactly when it was given. -/
theorem mem_pairs_ofPairs {pairs : List (κ × ν)} {p : κ × ν} :
    p ∈ (ofPairs pairs).pairs ↔ p ∈ pairs := by
  have h : ∀ (given : List (κ × ν)) (g : Groups κ ν),
      p ∈ (given.foldl add g).pairs ↔ p ∈ g.pairs ∨ p ∈ given := by
    intro given
    induction given with
    | nil => simp
    | cons q given ih =>
      intro g
      rw [List.foldl_cons, ih, add, mem_pairs_addEntry, List.mem_cons, or_assoc]
  rw [ofPairs, h pairs empty]
  simp [empty, Groups.pairs]

end Groups

end ChartParsing
