import ChartParsing.Proofs.GrammarText.Rereading
import ChartParsing.Proofs.Parser.ByName

/-!
# Listing a grammar and reading it back

The grammar that is read from the listing of a grammar says the same by names
(`Grammar.SameByName`), so it recognizes the same texts with the same diagnostics, and its own
listing does not change when it is read once more.
-/

namespace ChartParsing

open Text

namespace Grammar

/-- Two grammars, each over a table of its own, say the same by name: they have the same start
symbol, the same terminals in the same order, the same nonterminals and the same rules. -/
structure SameByName (g : Grammar Symbol) (names : NameTable) (h : Grammar Symbol)
    (names' : NameTable) : Prop extends g.SameRules names h names' where
  terminals : ∃ ss, g.terminals.mapM names.resolve = .ok ss ∧
    h.terminals.mapM names'.resolve = .ok ss
  nonterminals : ∀ s, (∃ a ∈ g.nonterminals, names.IsHandle s a) ↔
    ∃ a ∈ h.nonterminals, names'.IsHandle s a

section Named

variable {g : Grammar Symbol} {named : Grammar String} {names : NameTable}

theorem Related.mem_nonterminals_iff (hg : named.Related names.IsHandle g) {s : String} :
    (∃ a ∈ g.nonterminals, names.IsHandle s a) ↔ s ∈ named.nonterminals := by
  constructor
  · rintro ⟨a, ha, hs⟩
    exact (List.rel_mem hg.biUnique hs hg.nonterminals).2 ha
  · exact exists_of_mem_left hg.nonterminals

/-- The unit rules that a grammar has by name. -/
theorem Related.hasUnitRule_iff (hg : named.Related names.IsHandle g) (hs : named.IsSound)
    {left right : String} :
    g.HasUnitRule names left right ↔ right ∈ named.unitRules.get left := by
  constructor
  · rintro ⟨a, t, ha, ht, hmem⟩
    exact (List.rel_mem hg.biUnique ht (hg.unit ha)).2 hmem
  · intro h
    have hleft := hs.unit_left left (Groups.mem_keys_of_mem_get h)
    obtain ⟨a, -, ha⟩ := exists_of_mem_left hg.nonterminals hleft
    obtain ⟨t, hmem, ht⟩ := exists_of_mem_left (hg.unit ha) h
    exact ⟨a, t, ha, ht, hmem⟩

/-- The binary rules that a grammar has by name. -/
theorem Related.hasBinaryRule_iff (hg : named.Related names.IsHandle g) (hs : named.IsSound)
    {left first second : String} : g.HasBinaryRule names left first second ↔
      (first, second) ∈ named.binaryRules.get left := by
  constructor
  · rintro ⟨a, b, c, ha, hb, hc, hmem⟩
    have hpair := biUnique_pairRel hg.biUnique hg.biUnique
    exact (List.rel_mem hpair ⟨hb, hc⟩ (hg.binary ha)).2 hmem
  · intro h
    have hleft := hs.binary_left left (Groups.mem_keys_of_mem_get h)
    obtain ⟨a, -, ha⟩ := exists_of_mem_left hg.nonterminals hleft
    obtain ⟨p, hmem, hfirst, hsecond⟩ := exists_of_mem_left (hg.binary ha) h
    exact ⟨a, p.1, p.2, ha, hfirst, hsecond, hmem⟩

end Named

section Relisted

variable {g : Grammar String}

theorem mem_get_unitRules_relist (hg : g.IsSound) {a t : String} :
    t ∈ g.relist.unitRules.get a ↔ t ∈ g.unitRules.get a := by
  rw [relist, mem_get_unitRules, mem_relisted_unit]
  exact and_iff_right_of_imp fun h => hg.unit_left a (Groups.mem_keys_of_mem_get h)

theorem mem_get_binaryRules_relist (hg : g.IsSound) {a : String} {p : String × String} :
    p ∈ g.relist.binaryRules.get a ↔ p ∈ g.binaryRules.get a := by
  rw [relist, mem_get_binaryRules, mem_relisted_binary]
  exact and_iff_right_of_imp fun h => hg.binary_left a (Groups.mem_keys_of_mem_get h)

end Relisted

variable {g read : Grammar Symbol} {named : Grammar String} {names after : NameTable}

/-- A grammar and the one that is read from its listing say the same by name. -/
theorem sameByName_of_relist (hn : named.IsSound) (hterminals : named.terminals.Nodup)
    (hg : named.Related names.IsHandle g) (hr : named.relist.Related after.IsHandle read) :
    g.SameByName names read after where
  start := by
    rw [NameTable.resolve_of_find? hg.start, NameTable.resolve_of_find? hr.start]
    rfl
  unit left right := by
    rw [hg.hasUnitRule_iff hn, hr.hasUnitRule_iff (isSound_relist hn), mem_get_unitRules_relist hn]
  binary left first second := by
    rw [hg.hasBinaryRule_iff hn, hr.hasBinaryRule_iff (isSound_relist hn),
      mem_get_binaryRules_relist hn]
  terminals := by
    refine ⟨named.terminals, mapM_resolve hg.terminals, ?_⟩
    rw [← FirstSeen.ofList_of_nodup hterminals, ← terminals_relist]
    exact mapM_resolve hr.terminals
  nonterminals s := by
    rw [hg.mem_nonterminals_iff, hr.mem_nonterminals_iff, nonterminals_relist]
    exact (mem_relisted_nonterminals hn).symm

end Grammar

/-- A built grammar whose nonterminals are spelled as names, and which has no line end as a
terminal, is a grammar over names that can be read again. -/
theorem Grammar.IsBuiltOver.exists_reread {g : Grammar Symbol} {names : NameTable}
    (hg : g.IsBuiltOver names)
    (hnames : ∀ a ∈ g.nonterminals, ∀ s, names.resolve a = .ok s → IsName s.toList)
    (hterminals : ∀ t ∈ g.terminals, names.resolve t ≠ .ok "\n") :
    ∃ named : Grammar String, named.CanBeReread ∧ named.terminals.Nodup ∧
      named.Related names.IsHandle g := by
  obtain ⟨c, hc, hrelated⟩ := hg.exists_named
  have hlength : ∀ s ∈ (Grammar.ofDeclarations c).terminals, s.length = 1 :=
    fun s hs => hc.length_eq s (FirstSeen.mem_ofList.1 hs)
  refine ⟨.ofDeclarations c, ⟨⟨Grammar.isSound_ofDeclarations hc.toIsSound, fun s hs => ?_,
    fun s hs hnewline => ?_⟩, hlength⟩, FirstSeen.nodup_ofList c.terminals, hrelated⟩
  · obtain ⟨a, ha, hhandle⟩ := exists_of_mem_left hrelated.nonterminals hs
    exact hnames a ha s (NameTable.resolve_of_find? hhandle)
  · obtain ⟨t, ht, hhandle⟩ := exists_of_mem_left hrelated.terminals hs
    obtain ⟨x, rfl⟩ := exists_eq_singleton (hlength s hs)
    rw [String.toList_singleton, List.mem_singleton] at hnewline
    subst hnewline
    exact hterminals t ht (NameTable.resolve_of_find? hhandle)

namespace Parser

variable {g : Grammar Symbol} {names : NameTable}

/-- A grammar whose names can be written is listed, and its listing is read, over any table, as
a grammar that says the same by name, recognizes the same texts with the same diagnostics, and
has a listing that is read as a grammar with this listing again. -/
theorem reread_listing (hg : g.IsBuiltOver names)
    (hnames : ∀ a ∈ g.nonterminals, ∀ s, names.resolve a = .ok s → IsName s.toList)
    (hterminals : ∀ t ∈ g.terminals, names.resolve t ≠ .ok "\n") (table : NameTable) :
    ∃ source read after, g.listing names = .ok source ∧
      GrammarText.build source table = (.ok read, after) ∧
      g.SameByName names read after ∧
      (∀ policy : Policy Symbol, policy = .rightmost ∨ policy = .leftmost → ∀ limit text,
        (Parser.mk g policy limit).recognize names text =
          (Parser.mk read policy limit).recognize after text ∧
        ((Parser.mk g policy limit).fill names text).map (·.chart.diagnostics) =
          ((Parser.mk read policy limit).fill after text).map (·.chart.diagnostics)) ∧
      ∃ source', read.listing after = .ok source' ∧ ∀ table', ∃ again later,
        GrammarText.build source' table' = (.ok again, later) ∧
          again.listing later = .ok source' := by
  obtain ⟨named, hnamed, hnodup, hrelated⟩ := hg.exists_reread hnames hterminals
  obtain ⟨read, after, hread, hbuilt, hreread⟩ := hnamed.exists_build table
  have hsame := Grammar.sameByName_of_relist hnamed.isSound hnodup hrelated hreread
  have hagree : ∀ {order : Int → Int → Prop} {policy : Policy Symbol}, policy.Prefers order →
      ∀ limit text, (Parser.mk g policy limit).recognize names text =
          (Parser.mk read policy limit).recognize after text ∧
        ((Parser.mk g policy limit).fill names text).map (·.chart.diagnostics) =
          ((Parser.mk read policy limit).fill after text).map (·.chart.diagnostics) :=
    fun hp limit text => ⟨recognize_eq_of_sameRules hsame.toSameRules hg hbuilt hp limit text,
      diagnostics_eq_of_sameRules hsame.toSameRules hg hbuilt hp.decisive.staysOver limit text⟩
  refine ⟨_, read, after, hrelated.listing_eq, hread, hsame, ?_, _, hreread.listing_eq, ?_⟩
  · rintro policy (rfl | rfl)
    · exact hagree Policy.rightmost_prefers
    · exact hagree Policy.leftmost_prefers
  · intro table'
    obtain ⟨again, later, hagain, -, hlast⟩ := hnamed.relist.exists_build table'
    refine ⟨again, later, hagain, ?_⟩
    rw [hlast.listing_eq, Grammar.lines_relist_relist hnamed.isSound]

/-- A grammar with keywords for names and signs of the notation for terminals. -/
def keywords : Grammar Symbol :=
  .ofDeclarations ⟨0, [1, 2], [3, 0], [(3, 0, 3)], [(0, 1), (3, 2)]⟩

/-- The table of `keywords`. -/
def keywordNames : NameTable := ⟨["start", "\"", "%", "terminals"]⟩

theorem keywords_isBuiltOver : keywords.IsBuiltOver keywordNames := by
  let d : Description := {
    start := .str "start"
    terminals := [.str "\"", .str "%"]
    nonterminals := [.str "terminals", .str "start"]
    binary := [.tuple [.str "terminals", .str "start", .str "terminals"]]
    unit := [.tuple [.str "start", .str "\""], .tuple [.str "terminals", .str "%"]] }
  exact ⟨d, .empty, keywordNames, rfl, .refl _⟩

theorem reread_keywords : keywords.IsBuiltOver keywordNames ∧
    (∀ a ∈ keywords.nonterminals, ∀ s, keywordNames.resolve a = .ok s → IsName s.toList) ∧
    (∀ t ∈ keywords.terminals, keywordNames.resolve t ≠ .ok "\n") ∧
    ∃ source read after, keywords.listing keywordNames = .ok source ∧
      GrammarText.build source .empty = (.ok read, after) ∧
      keywords.SameByName keywordNames read after := by
  have hname : IsName "start".toList ∧ IsName "terminals".toList :=
    ⟨⟨'s', _, rfl, by decide +kernel, List.all_eq_true.1 (by decide +kernel)⟩,
      ⟨'t', _, rfl, by decide +kernel, List.all_eq_true.1 (by decide +kernel)⟩⟩
  have hnames : ∀ a ∈ keywords.nonterminals, ∀ s, keywordNames.resolve a = .ok s →
      IsName s.toList := by
    have hlist : keywords.nonterminals = [3, 0] := rfl
    rw [hlist, List.forall_mem_cons, List.forall_mem_singleton]
    refine ⟨fun s hs => ?_, fun s hs => ?_⟩
    · cases hs
      exact hname.2
    · cases hs
      exact hname.1
  have hterminals : ∀ t ∈ keywords.terminals, keywordNames.resolve t ≠ .ok "\n" := by
    have hlist : keywords.terminals = [1, 2] := rfl
    rw [hlist, List.forall_mem_cons, List.forall_mem_singleton]
    refine ⟨fun h => ?_, fun h => ?_⟩
    · exact absurd (Except.ok.inj h : "\"" = "\n") (by decide)
    · exact absurd (Except.ok.inj h : "%" = "\n") (by decide)
  obtain ⟨source, read, after, hlisting, hread, hsame, -⟩ :=
    reread_listing keywords_isBuiltOver hnames hterminals .empty
  exact ⟨keywords_isBuiltOver, hnames, hterminals, source, read, after, hlisting, hread, hsame⟩

end Parser

end ChartParsing
