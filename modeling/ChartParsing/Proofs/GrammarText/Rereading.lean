import ChartParsing.Proofs.GrammarText.Relisting

/-!
# Listings that are read again

`Grammar.relist` is the grammar over names that comes out of a listing. It has the symbols and
rules of the grammar that was listed, the start symbol first among its nonterminals; listing
it and reading it once more changes nothing (`Grammar.lines_relist_relist`).
-/

namespace ChartParsing

theorem FirstSeen.ofList_cons_ofList_cons {α : Type} [DecidableEq α] (a : α) (as : List α) :
    ofList (a :: ofList (a :: as)) = ofList (a :: as) := by
  obtain ⟨rest, hrest⟩ : [a] <+: ofList (a :: as) := prefix_addAll [a] as
  have hagain : ofList (a :: a :: rest) = ofList (a :: rest) := by
    have ha : add [a] a = [a] := add_of_mem List.mem_cons_self
    exact congrArg (addAll · rest) ha
  rw [List.singleton_append] at hrest
  rw [← hrest, hagain, hrest]
  exact ofList_of_nodup (nodup_ofList (a :: as))

/-- Of a list without repetitions that gives something for each element, the part of one
element. -/
theorem flatMap_if_eq {α β : Type} [DecidableEq α] {as : List α} (hn : as.Nodup) {a : α}
    (ha : a ∈ as) (f : α → List β) : (as.flatMap fun b => if b = a then f b else []) = f a := by
  induction as with
  | nil => cases ha
  | cons b as ih =>
    obtain ⟨hb, hn⟩ := List.nodup_cons.1 hn
    rw [List.flatMap_cons]
    by_cases h : b = a
    · subst h
      have hrest : (as.flatMap fun c => if c = b then f c else []) = [] := by
        rw [List.flatMap_eq_nil_iff]
        intro c hc
        exact if_neg fun e : c = b => hb (e ▸ hc)
      rw [if_pos rfl, hrest, List.append_nil]
    · rw [if_neg h, List.nil_append]
      exact ih hn ((List.mem_cons.1 ha).resolve_left (Ne.symm h))

/-- Pairs that are grouped again keep the values of each key. -/
theorem Groups.get_ofPairs_flatMap {κ ν : Type} [DecidableEq κ] [DecidableEq ν] {keys : List κ}
    (hn : keys.Nodup) (f : κ → List ν) {k : κ} (hk : k ∈ keys) (hf : (f k).Nodup) :
    (ofPairs (keys.flatMap fun k => (f k).map (k, ·))).get k = f k := by
  have hrow : ∀ k', (((f k').map (k', ·)).filter fun p => p.1 = k).map (·.2) =
      if k' = k then f k' else [] := by
    intro k'
    by_cases h : k' = k <;> simp [h, Function.comp_def, List.filter_map]
  rw [get_ofPairs, List.filter_flatMap, List.map_flatMap]
  simp only [hrow]
  rw [flatMap_if_eq hn hk, FirstSeen.ofList_of_nodup hf]

namespace Grammar

/-- The grammar over names that comes out of a listing. -/
def relist (g : Grammar String) : Grammar String :=
  ofDeclarations g.relisted

variable {g : Grammar String}

theorem relisted_unit_eq (g : Grammar String) : g.relisted.unit =
    g.nonterminals.flatMap fun a => (g.unitRules.get a).map (a, ·) := by
  show g.rules.filterMap Rule.unit? = _
  rw [rules, List.filterMap_flatMap]
  refine congrArg (List.flatMap · g.nonterminals) (funext fun a => ?_)
  simp [rulesFor, Rule.unit?, List.filterMap_append, List.filterMap_map, Function.comp_def]

theorem relisted_binary_eq (g : Grammar String) : g.relisted.binary =
    g.nonterminals.flatMap fun a => (g.binaryRules.get a).map (a, ·) := by
  show g.rules.filterMap Rule.binary? = _
  rw [rules, List.filterMap_flatMap]
  refine congrArg (List.flatMap · g.nonterminals) (funext fun a => ?_)
  simp [rulesFor, Rule.binary?, List.filterMap_append, List.filterMap_map, Function.comp_def]

/-- A grammar that keeps nothing twice. -/
structure HasNoRepeats (g : Grammar String) : Prop where
  nonterminals : g.nonterminals.Nodup
  unit : ∀ a, (g.unitRules.get a).Nodup
  binary : ∀ a, (g.binaryRules.get a).Nodup

theorem hasNoRepeats_ofDeclarations (d : Declarations String) :
    (ofDeclarations d).HasNoRepeats :=
  ⟨FirstSeen.nodup_ofList _, Groups.nodup_get_ofPairs _, Groups.nodup_get_ofPairs _⟩

theorem terminals_relist (g : Grammar String) :
    g.relist.terminals = FirstSeen.ofList g.terminals :=
  FirstSeen.ofList_of_nodup (FirstSeen.nodup_ofList _)

theorem nonterminals_relist (g : Grammar String) :
    g.relist.nonterminals = FirstSeen.ofList (g.start :: g.nonterminals) :=
  FirstSeen.ofList_of_nodup (FirstSeen.nodup_ofList _)

theorem get_unitRules_relist (hg : g.HasNoRepeats) {a : String} (ha : a ∈ g.nonterminals) :
    g.relist.unitRules.get a = g.unitRules.get a := by
  show (Groups.ofPairs g.relisted.unit).get a = _
  rw [relisted_unit_eq, Groups.get_ofPairs_flatMap hg.nonterminals _ ha (hg.unit a)]

theorem get_binaryRules_relist (hg : g.HasNoRepeats) {a : String} (ha : a ∈ g.nonterminals) :
    g.relist.binaryRules.get a = g.binaryRules.get a := by
  show (Groups.ofPairs g.relisted.binary).get a = _
  rw [relisted_binary_eq, Groups.get_ofPairs_flatMap hg.nonterminals _ ha (hg.binary a)]

/-- The rules of a left side stay as they are; the start symbol comes first. -/
theorem rules_relist (hg : g.IsSound) (hn : g.HasNoRepeats) :
    g.relist.rules = (FirstSeen.ofList (g.start :: g.nonterminals)).flatMap g.rulesFor := by
  rw [rules, nonterminals_relist]
  refine List.flatMap_congr fun a ha => ?_
  have ha : a ∈ g.nonterminals := (mem_relisted_nonterminals hg).1 ha
  rw [rulesFor, rulesFor, get_unitRules_relist hn ha, get_binaryRules_relist hn ha]

/-- The lines of a listing are made of the symbols and the rules. -/
theorem lines_congr {h : Grammar String} (hstart : g.start = h.start)
    (hterminals : g.terminals = h.terminals) (hnonterminals : g.nonterminals = h.nonterminals)
    (hrules : g.rules = h.rules) : g.lines = h.lines := by
  have hline : g.ruleLine = h.ruleLine := by
    have hterminal : g.isTerminal = h.isTerminal := by
      funext s
      exact decide_eq_decide.2 (by rw [hterminals])
    funext r
    simp only [ruleLine, hterminal]
  rw [lines, lines, hstart, hterminals, hnonterminals, hrules, hline]

theorem isSound_relist (hg : g.IsSound) : g.relist.IsSound :=
  isSound_ofDeclarations (isSound_relisted hg)

/-- A listing that was read once stays as it is when it is read again. -/
theorem lines_relist_relist (hg : g.IsSound) : g.relist.relist.lines = g.relist.lines := by
  have hnonterminals : FirstSeen.ofList (g.relist.start :: g.relist.nonterminals) =
      g.relist.nonterminals := by
    rw [nonterminals_relist]
    exact FirstSeen.ofList_cons_ofList_cons g.start g.nonterminals
  refine lines_congr rfl ?_ ?_ ?_
  · rw [terminals_relist, terminals_relist,
      FirstSeen.ofList_of_nodup (FirstSeen.nodup_ofList _)]
  · rw [nonterminals_relist, hnonterminals]
  · rw [rules_relist (isSound_relist hg) (hasNoRepeats_ofDeclarations _), hnonterminals]
    rfl

/-- Whether a grammar over names can be written in grammar text and built from it again. -/
structure CanBeReread (g : Grammar String) : Prop extends g.CanBeWritten where
  length_eq : ∀ s ∈ g.terminals, s.length = 1

theorem CanBeReread.relist (h : g.CanBeReread) : g.relist.CanBeReread where
  isSound := isSound_relist h.isSound
  isName s hs := by
    rw [nonterminals_relist] at hs
    exact h.isName s ((mem_relisted_nonterminals h.isSound).1 hs)
  not_mem s hs := by
    rw [terminals_relist] at hs
    exact h.not_mem s (mem_relisted_terminals.1 hs)
  length_eq s hs := by
    rw [terminals_relist] at hs
    exact h.length_eq s (mem_relisted_terminals.1 hs)

theorem CanBeReread.isConsistent (h : g.CanBeReread) : g.relisted.IsConsistent where
  toIsSound := isSound_relisted h.isSound
  ne_empty s hs := by
    obtain ⟨c, rest, hname, -⟩ := h.isName s ((mem_relisted_nonterminals h.isSound).1 hs)
    rintro rfl
    cases hname
  length_eq s hs := h.length_eq s (mem_relisted_terminals.1 hs)

/-- The listing of a grammar is read, over any table, as the grammar that comes out of it, whose
left sides appear in their order. -/
theorem CanBeReread.exists_build_inOrder (h : g.CanBeReread) (names : NameTable) :
    ∃ read after, GrammarText.build ("\n".intercalate g.lines) names = (.ok read, after) ∧
      read.IsBuiltOver after ∧ g.relist.RelatedInOrder after.IsHandle read := by
  obtain ⟨d, hd, hmeans⟩ := describeItems_items h.isSound
  have hbuild : GrammarText.build ("\n".intercalate g.lines) = d.build := by
    rw [GrammarText.build, items_lines h.toCanBeWritten]
    show Building.ofDescribed ((GrammarText.describeItems g.items).mapError .flawed) = _
    rw [hd]
    rfl
  have hcheck := Description.check_eq_ok_iff.2 ⟨hmeans, h.isConsistent⟩
  have hb : d.build names = _ := Description.build_of_check hcheck
  have hread := (g.relisted.settles_intern names).2 _ (.refl _)
  refine ⟨_, _, by rw [hbuild, hb], ⟨d, names, _, hb, .refl _⟩, ?_⟩
  exact relatedInOrder_ofDeclarations (NameTable.biUnique_isHandle _) hread.related

/-- The listing of a grammar is read, over any table, as the grammar that comes out of it. -/
theorem CanBeReread.exists_build (h : g.CanBeReread) (names : NameTable) :
    ∃ read after, GrammarText.build ("\n".intercalate g.lines) names = (.ok read, after) ∧
      read.IsBuiltOver after ∧ g.relist.Related after.IsHandle read := by
  obtain ⟨read, after, hread, hbuilt, hrelated⟩ := h.exists_build_inOrder names
  exact ⟨read, after, hread, hbuilt, hrelated.toRelated⟩

end Grammar

end ChartParsing
