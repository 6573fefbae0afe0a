import ChartParsing.Proofs.GrammarText.Declaring
import ChartParsing.Proofs.GrammarText.Order
import ChartParsing.Proofs.Parser.Forest
import ChartParsing.Proofs.Parser.RoundTrip
import ChartParsing.Proofs.Parser.SameVerdicts
import ChartParsing.Proofs.Parser.Soundness

/-!
# Parsing with a grammar that was read back

A grammar that is read from the listing of another one has the same rules by name, so it refuses
the same texts in the same words, and what it gives for the others is a parse of the first grammar
(`Grammar.SameRules.exists_isParse`). Which parse it gives hangs on the order of the left sides,
which a listing writes by declaration.
-/

namespace ChartParsing

namespace Grammar

variable {g h : Grammar Symbol} {names names' : NameTable}

/-- A parse tree of a grammar with the same rules by name is, by names, one of this grammar. -/
theorem SameRules.exists_isParse (hsame : g.SameRules names h names') (hh : h.IsBuiltOver names')
    {text : List Char} {u : Tree Symbol} (hu : u.IsParse h names'.Spells text) :
    ∃ t : Tree Symbol, t.IsParse g names.Spells text ∧ t.Related (names.SameName names') u := by
  induction u with
  | leaf l => exact hu.elim
  | unary b child =>
    obtain ⟨hrule, i, c, hi, hc, hspells⟩ := hu
    obtain ⟨left, right, hleft, hright⟩ := hh.exists_unitNames hrule
    obtain ⟨a, t, ha, ht, hmem⟩ := (hsame.unit left right).2 ⟨_, _, hleft, hright, hrule⟩
    obtain rfl : right = String.singleton c :=
      Except.ok.inj ((NameTable.resolve_of_find? hright).symm.trans hspells)
    refine ⟨.unary a ⟨t, child.position⟩, ⟨hmem, i, c, hi, hc, NameTable.resolve_of_find? ht⟩, ?_⟩
    exact .unary ⟨left, ha, hleft⟩ ⟨_, ht, hright⟩
  | binary b span x y ihx ihy =>
    obtain ⟨hrule, htiles, hx, hy⟩ := hu
    obtain ⟨x', hx', hxrel⟩ := ihx hx
    obtain ⟨y', hy', hyrel⟩ := ihy hy
    obtain ⟨left, first, second, hleft, hfirst, hsecond⟩ := hh.exists_names hrule
    obtain ⟨a, a₁, a₂, ha, ha₁, ha₂, hmem⟩ :=
      (hsame.binary left first second).2 ⟨_, _, _, hleft, hfirst, hsecond, hrule⟩
    have hbi := names.biUnique_sameName names'
    -- a name has one handle in each table
    have hkind₁ : x'.kind = a₁ := hbi.1 hxrel.kind ⟨first, ha₁, hfirst⟩
    have hkind₂ : y'.kind = a₂ := hbi.1 hyrel.kind ⟨second, ha₂, hsecond⟩
    refine ⟨.binary a span x' y', ⟨?_, ?_, hx', hy'⟩, .binary ⟨left, ha, hleft⟩ hxrel hyrel⟩
    · rw [hkind₁, hkind₂]
      exact hmem
    · rw [hxrel.span, hyrel.span]
      exact htiles

end Grammar

namespace Parser

variable {g h : Grammar Symbol} {names names' : NameTable}

/-- A chart that gives a tree of the start symbol makes the parser give it. -/
theorem result_eq_ok_of_root {p : Parser} {text : String} {f : Filling Symbol}
    (hfill : p.fill names text = .ok f) {s : String}
    (hs : names.resolve p.grammar.start = .ok s) {root : Tree Symbol}
    (hroot : f.chart.top?.bind (·.lookup p.grammar.start) = some root) :
    (p.parse names text).result = .ok root := by
  rw [parse_of_fill hfill, conclude]
  split
  · rename_i hsize
    rw [Chart.top?, if_pos hsize] at hroot
    cases hroot
  · rw [hs, hroot]

/-- Parsers of grammars with the same rules by name give the same verdicts, whatever holds of the
trees that they give. -/
theorem sameVerdict_of_sameRules (hsame : g.SameRules names h names') (hg : g.IsBuiltOver names)
    (hh : h.IsBuiltOver names') {order : Int → Int → Prop} {policy : Policy Symbol}
    (hp : policy.Prefers order) (limit : Option Int) (text : String)
    {T : Tree Symbol → Tree Symbol → Prop}
    (hT : ∀ t u, ((Parser.mk g policy limit).parse names text).result = .ok t →
      ((Parser.mk h policy limit).parse names' text).result = .ok u → T t u) :
    SameVerdict T ⟨g, policy, limit⟩ ⟨h, policy, limit⟩ names names' text := by
  have hrecognize := recognize_eq_of_sameRules hsame hg hh hp limit text
  have hdiagnostics := diagnostics_eq_of_sameRules hsame hg hh hp.decisive.staysOver limit text
  by_cases ha : (Parser.mk g policy limit).Admits text
  · have ha' : (Parser.mk h policy limit).Admits text := ha
    obtain ⟨s, hs⟩ := hg.exists_start
    obtain ⟨f, hfill, hf⟩ := exists_fill hg hp.decisive.staysOver ha
    obtain ⟨f', hfill', hf'⟩ := exists_fill hh hp.decisive.staysOver ha'
    have hs' : names'.resolve h.start = .ok s := hsame.start ▸ hs
    rw [hfill, hfill'] at hdiagnostics
    rw [recognize, recognize, hfill, hfill'] at hrecognize
    have haccepts : f.chart.accepts g.start = f'.chart.accepts h.start := Except.ok.inj hrecognize
    rw [Chart.accepts_eq_isSome, Chart.accepts_eq_isSome] at haccepts
    refine sameVerdict_of_fill hfill hfill' hs hs' (hf.size.trans hf'.size.symm)
      (Except.ok.inj hdiagnostics) ?_
    refine rel_of_isSome_eq haccepts fun t u ht hu => ?_
    exact hT t u (result_eq_ok_of_root hfill hs ht) (result_eq_ok_of_root hfill' hs' hu)
  · obtain ⟨bound, rfl, hlt⟩ := exists_limit_of_not_admits ha
    exact sameVerdict_of_fill_eq_error (fill_of_limit_lt rfl hlt) (fill_of_limit_lt rfl hlt)

/-- The tree that a parser gives is a parse of the text. -/
theorem mem_parsesOf_of_parse {p : Parser} (hg : p.grammar.IsBuiltOver names)
    (hp : p.policy.IsDecisive) {text : String} {root : Tree Symbol}
    (hroot : (p.parse names text).result = .ok root) : root ∈ parsesOf p.grammar names text := by
  obtain ⟨-, hfind⟩ := (parse_eq_ok_iff hg hp.staysOver).1 hroot
  have hkind := List.find?_some hfind
  obtain ⟨hparse, hspan, -⟩ :=
    isParse_of_mem_rootTrees hg hp.onlyPicks (List.mem_of_find?_eq_some hfind)
  exact ⟨hparse, of_decide_eq_true hkind, hspan⟩

/-- A parse of a text under a grammar with the same start symbol and rules by name is, by names,
a parse under this grammar. -/
theorem exists_mem_parsesOf_of_sameRules (hsame : g.SameRules names h names')
    (hg : g.IsBuiltOver names) (hh : h.IsBuiltOver names') {text : String} {u : Tree Symbol}
    (hu : u ∈ parsesOf h names' text) :
    ∃ t ∈ parsesOf g names text, t.Related (names.SameName names') u := by
  obtain ⟨hparse, hkind, hspan⟩ := hu
  obtain ⟨t, ht, hrelated⟩ := hsame.exists_isParse hh hparse
  refine ⟨t, ⟨ht, ?_, hrelated.span.trans hspan⟩, hrelated⟩
  exact (names.biUnique_sameName names').1 hrelated.kind (hkind ▸ hsame.exists_handle_start hg hh)

/-- Where one grammar gives `t`, the other gives `u`: by names a parse of the text under the first
grammar, and `t` itself if there is but one parse or if the first grammar lists left sides in order
of declaration. -/
structure StandsFor (g : Grammar Symbol) (names names' : NameTable) (text : String)
    (t u : Tree Symbol) : Prop where
  isParse : ∃ t' ∈ parsesOf g names text, t'.Related (names.SameName names') u
  same : g.ListsInOrder ∨ (parsesOf g names text).Subsingleton → t.Related (names.SameName names') u

/-- Under a policy that goes by shape, grammars with the same rules by name give trees that stand
for each other, if what is listed in order of declaration is listed alike. -/
theorem standsFor_of_parse (hsame : g.SameRules names h names') (hg : g.IsBuiltOver names)
    (hh : h.IsBuiltOver names')
    (horder : g.ListsInOrder → g.LeftsRelated (names.SameName names') h) {policy : Policy Symbol}
    (hp : policy.IsDecisive) (hpolicy : Policy.Related (names.SameName names') policy policy)
    {limit : Option Int} {text : String} {t u : Tree Symbol}
    (ht : ((Parser.mk g policy limit).parse names text).result = .ok t)
    (hu : ((Parser.mk h policy limit).parse names' text).result = .ok u) :
    StandsFor g names names' text t u := by
  have hmem := mem_parsesOf_of_parse hg hp ht
  obtain ⟨t', hmem', hrelated⟩ :=
    exists_mem_parsesOf_of_sameRules hsame hg hh (mem_parsesOf_of_parse hh hp hu)
  refine ⟨⟨t', hmem', hrelated⟩, ?_⟩
  rintro (hinOrder | hone)
  · have hparse := (answerAlike_of_leftsRelated (horder hinOrder) hg hh hp.staysOver hpolicy limit
      text).parse
    rw [ht, hu] at hparse
    cases hparse with
    | ok hparse => exact hparse
  · exact hone hmem hmem' ▸ hrelated

/-- A grammar of a text is listed, and its listing is read, over any table, as a grammar that says
the same by name and gives every text the same verdict: both recognize it or neither does, and they
fail in the same way or give trees that stand for each other. The left sides are listed as before
exactly if they were in order of declaration, and the listing is as before exactly if the start
symbol is declared first. -/
theorem sameVerdict_of_listing_read {source : String} {before : NameTable}
    (hbuild : GrammarText.build source before = (.ok g, names)) (table : NameTable) :
    ∃ listing read after, g.listing names = .ok listing ∧
      GrammarText.build listing table = (.ok read, after) ∧ g.SameByName names read after ∧
      (read.listing after = .ok listing ↔ g.nonterminals.head? = some g.start) ∧
      (g.LeftsRelated (names.SameName after) read ↔ g.ListsInOrder) ∧
      ∀ policy : Policy Symbol, policy = .rightmost ∨ policy = .leftmost → ∀ limit text,
        SameVerdict (StandsFor g names after text) ⟨g, policy, limit⟩ ⟨read, policy, limit⟩ names
          after text := by
  obtain ⟨c, hreread, hrelated, hg⟩ := Grammar.exists_canBeReread_of_build hbuild
  obtain ⟨read, after, hread, hr, hrelated'⟩ := hreread.exists_build_inOrder table
  have hn := Grammar.hasNoRepeats_ofDeclarations c
  have hterminals : (Grammar.ofDeclarations c).terminals.Nodup := FirstSeen.nodup_ofList _
  have hsame := Grammar.sameByName_of_relist hreread.isSound hterminals hrelated.toRelated
    hrelated'.toRelated
  have hrules := hsame.toSameRules
  have horder : g.ListsInOrder → g.LeftsRelated (names.SameName after) read :=
    (·.leftsRelated hn hrelated hrelated' hreread.isSound hg.reads.isIndexed)
  refine ⟨_, read, after, hrelated.listing_eq, hread, hsame, ?_, ⟨?_, horder⟩, ?_⟩
  · rw [hrelated'.listing_eq, Except.ok.injEq, hreread.listing_relist_iff hn hterminals]
    exact hrelated.head?_eq_start_iff
  · exact (·.listsInOrder hn hrelated hrelated' hreread.isSound hg.reads.isIndexed)
  · rintro policy (rfl | rfl) limit text
    · refine sameVerdict_of_sameRules hrules hg hr Policy.rightmost_prefers limit text fun t u => ?_
      exact standsFor_of_parse hrules hg hr horder Policy.rightmost_isDecisive
        (Policy.rightmost_related _)
    · refine sameVerdict_of_sameRules hrules hg hr Policy.leftmost_prefers limit text fun t u => ?_
      exact standsFor_of_parse hrules hg hr horder Policy.leftmost_isDecisive
        (Policy.leftmost_related _)

/-- The listing of `Grammar.letters` is read as a grammar that parses three letters, which have two
parses, to the same tree. -/
theorem letters_listing_read :
    GrammarText.build "S -> S S | \"a\"" .empty = (.ok Grammar.letters, Grammar.letterNames) ∧
    Grammar.letters.ListsInOrder ∧ ∃ listing read after,
      Grammar.letters.listing Grammar.letterNames = .ok listing ∧
      GrammarText.build listing .empty = (.ok read, after) ∧ read.listing after = .ok listing ∧
      SameVerdict (Tree.Related (Grammar.letterNames.SameName after)) (ofGrammar Grammar.letters)
        (ofGrammar read) Grammar.letterNames after "aaa" := by
  have hbuild : GrammarText.build "S -> S S | \"a\"" .empty =
      (.ok Grammar.letters, Grammar.letterNames) := eq_ok_and_of_toOption (by decide +kernel)
  have horder : Grammar.letters.ListsInOrder := by
    refine ⟨fun t => ?_, fun b c => ?_⟩
    · rw [Grammar.letters, Grammar.unitParents_ofDeclarations, Grammar.unitLefts_ofDeclarations]
      exact List.filter_sublist
    · rw [Grammar.letters, Grammar.binaryParents_ofDeclarations,
        Grammar.binaryLefts_ofDeclarations]
      exact List.filter_sublist
  obtain ⟨listing, read, after, hlisting, hread, -, hagain, -, hverdict⟩ :=
    sameVerdict_of_listing_read hbuild .empty
  have hstands := hverdict .rightmost (.inl rfl) none "aaa"
  refine ⟨hbuild, horder, listing, read, after, hlisting, hread, hagain.2 rfl, ?_⟩
  exact ⟨hstands.recognize, hstands.parse.imp fun _ _ h => h.same (.inl horder), hstands.message⟩

/-- A text that declares `A` first, though its first rule is one of the start symbol `S`. -/
def lateStart : String := "nonterminals: A\nS -> \"a\" | A A | S S\nA -> \"a\""

/-- The grammar of `lateStart`. -/
def lateStartGrammar : Grammar Symbol :=
  .ofDeclarations ⟨0, [1], [2, 0], [(0, 2, 2), (0, 0, 0)], [(0, 1), (2, 1)]⟩

/-- The grammar that is read from the listing of `lateStartGrammar`. -/
def lateStartRead : Grammar Symbol :=
  .ofDeclarations ⟨0, [1], [0, 2], [(0, 2, 2), (0, 0, 0)], [(2, 1), (0, 1)]⟩

/-- The table of both. -/
def lateStartNames : NameTable := ⟨["S", "a", "A"]⟩

/-- The grammar that is read from the listing of `lateStartGrammar` has another listing, and it
parses two letters to another tree. -/
theorem lateStart_read_differs :
    GrammarText.build lateStart .empty = (.ok lateStartGrammar, lateStartNames) ∧
    ∃ listing, lateStartGrammar.listing lateStartNames = .ok listing ∧
      GrammarText.build listing .empty = (.ok lateStartRead, lateStartNames) ∧
      lateStartRead.listing lateStartNames ≠ .ok listing ∧
      ∃ t u, ((ofGrammar lateStartGrammar).parse lateStartNames "aa").result = .ok t ∧
        ((ofGrammar lateStartRead).parse lateStartNames "aa").result = .ok u ∧
        ¬t.Related (lateStartNames.SameName lateStartNames) u := by
  have hbuild : GrammarText.build lateStart .empty = (.ok lateStartGrammar, lateStartNames) :=
    eq_ok_and_of_toOption (by decide +kernel)
  let listing := "start: S\nterminals: \"a\"\nnonterminals: A S\n" ++
    "A -> \"a\"\nS -> \"a\"\nS -> A A\nS -> S S"
  have hlisting : lateStartGrammar.listing lateStartNames = .ok listing :=
    eq_ok_of_toOption (by decide +kernel)
  have hread : GrammarText.build listing .empty = (.ok lateStartRead, lateStartNames) :=
    eq_ok_and_of_toOption (by decide +kernel)
  have hother : (lateStartRead.listing lateStartNames).toOption ≠ some listing := by
    decide +kernel
  refine ⟨hbuild, listing, hlisting, hread, fun h => hother (by rw [h]; rfl), ?_⟩
  refine ⟨.binary 0 ⟨0, 2⟩ (.unary 0 ⟨1, 0⟩) (.unary 0 ⟨1, 1⟩),
    .binary 0 ⟨0, 2⟩ (.unary 2 ⟨1, 0⟩) (.unary 2 ⟨1, 1⟩),
    eq_ok_of_toOption (by decide +kernel), eq_ok_of_toOption (by decide +kernel), ?_⟩
  -- the left parts have different names
  rintro (_ | _ | ⟨-, hleft, -⟩)
  obtain ⟨s, hs, hs'⟩ := hleft.kind
  cases hs.symm.trans hs'

end Parser

end ChartParsing
