import ChartParsing.Proofs.Chart.Locality
import ChartParsing.Proofs.Parser.SharedTables

/-!
# Parsing a part of a text

What a parser finds over a part of a text it finds again when it is given that part alone: the cell
over the whole part is the cell that the chart of the text has over the same characters, shifted to
the left. Every subtree of a tree that is returned is the first tree of its symbol over its span,
so the parser whose grammar starts with that symbol returns the subtree for the part that it covers
(`Parser.parsing_is_local`).
-/

namespace ChartParsing

section Start

variable {c : Declarations String} {s : String}

/-- Declarations stay related when related start symbols take the place of the old ones. -/
theorem Declarations.Related.withStart {α β : Type} {R : α → β → Prop} {d : Declarations α}
    {e : Declarations β} (h : d.Related R e) {a : α} {b : β} (hab : R a b) :
    ({ d with start := a } : Declarations α).Related R { e with start := b } :=
  ⟨hab, h.terminals, h.nonterminals, h.binary, h.unit⟩

/-- Declarations stay consistent when they start with another nonterminal. -/
theorem Declarations.IsConsistent.withStart (h : c.IsConsistent) (hs : s ∈ c.nonterminals) :
    ({ c with start := s } : Declarations String).IsConsistent :=
  ⟨⟨h.disjoint, hs, h.binary_mem, h.unit_mem⟩, h.ne_empty, h.length_eq⟩

/-- A description that is checked can start with any of its nonterminals. -/
theorem Description.check_withStart {d : Description} (h : d.check = .ok c)
    (hs : s ∈ c.nonterminals) :
    ({ d with start := .str s } : Description).check = .ok { c with start := s } := by
  obtain ⟨hd, hc⟩ := check_eq_ok_iff.1 h
  exact check_eq_ok_iff.2
    ⟨⟨rfl, hd.terminals, hd.nonterminals, hd.binary, hd.unit⟩, hc.withStart hs⟩

end Start

/-- The first tree of a symbol over a span stands, in a grammar with related left sides, for the
first tree of the symbol of the same name. -/
theorem Grammar.IsFirst.exists_related {g h : Grammar Symbol} {names names' : NameTable}
    {policy : Policy Symbol} {text : List Char} {i l : Nat} {x : Tree Symbol} {kind : Symbol}
    (hx : g.IsFirst (Parser.characterSymbol names) policy text i l x)
    (hg : g.LeftsRelated (names.SameName names') h)
    (hpolicy : Policy.Related (names.SameName names') policy policy)
    (hkind : names.SameName names' x.kind kind) :
    ∃ y, (h.treesAt (Parser.characterSymbol names') policy text i l).find?
        (fun t => decide (t.kind = kind)) = some y ∧ x.Related (names.SameName names') y := by
  have hunique := names.biUnique_sameName names'
  have htrees := hg.treesAt (lookUpAlike_of_sameName hg) text hpolicy i l
  have hkinds : ∀ t u : Tree Symbol, t.Related (names.SameName names') u →
      decide (t.kind = x.kind) = decide (u.kind = kind) := by
    intro t u htu
    rw [decide_eq_decide]
    exact ⟨fun h => hunique.2 htu.kind (h ▸ hkind), fun h => hunique.1 htu.kind (h ▸ hkind)⟩
  have hfound := rel_find? hkinds htrees
  rw [IsFirst] at hx
  rw [hx] at hfound
  exact exists_of_rel_some hfound

namespace Parser

/-- The part of a text of `l` characters from position `i`. -/
def partOf (text : String) (i l : Nat) : String := String.ofList (slice text.toList i l)

variable {p : Parser} {names : NameTable} {text : String} {order : Int → Int → Prop}
variable {policy : Policy Symbol} {limit : Option Int} {i l : Nat}

@[simp] theorem toList_partOf : (partOf text i l).toList = slice text.toList i l :=
  String.toList_ofList

theorem length_partOf (hi : i + l ≤ text.length) : (partOf text i l).length = l := by
  rw [← String.length_toList, toList_partOf, length_slice (by rwa [String.length_toList])]

/-- A parser that admits a text admits its parts. -/
theorem Admits.partOf (ha : p.Admits text) (hi : i + l ≤ text.length) :
    p.Admits (partOf text i l) := by
  intro bound hbound
  have := ha bound hbound
  rw [length_partOf hi]
  omega

/-- The cell over a whole part of a text is the cell over the same characters of the text. -/
theorem top?_of_fills_part {f f' : Filling Symbol} (hp : p.policy.Prefers order)
    (hf : p.Fills names text f) (hf' : p.Fills names (partOf text i l) f') (hl : 0 < l)
    (hi : i + l ≤ text.length) :
    f'.chart.top? = (f.chart.get? ⟨i, l⟩).map (Cell.shift (-i)) := by
  have hlen : (partOf text i l).toList.length = l := by
    rw [String.length_toList, length_partOf hi]
  have hspan : (⟨i, l⟩ : Span) ∈ Grammar.spansOf text.toList.length :=
    Grammar.mem_spansOf.2 ⟨i, l, hl, by rwa [String.length_toList], rfl⟩
  have hpart : (⟨(0 : Nat), l⟩ : Span) ∈ Grammar.spansOf (partOf text i l).toList.length :=
    Grammar.mem_spansOf.2 ⟨0, l, hl, by omega, rfl⟩
  rw [hf'.top?_eq (List.length_pos_iff.1 (by omega)), hlen, hf'.get?_of_mem hpart,
    hf.get?_of_mem hspan, toList_partOf, Grammar.cellOver?_slice hp]

/-- The first tree of a symbol over a span is returned for the part of the text that the span
covers, by every parser whose grammar starts with that symbol and has the same rules. -/
theorem parse_part_of_isFirst {d : Description} {c : Declarations String}
    {c' : Declarations Symbol} {x : Tree Symbol} (hcheck : d.check = .ok c)
    (hread : c.IsRead names c') (hp : policy.Prefers order)
    (hpolicy : ∀ R, Policy.Related R policy policy)
    (ha : (Parser.mk (.ofDeclarations c') policy limit).Admits text) (hi : i + l ≤ text.length)
    (hx : (Grammar.ofDeclarations c').IsFirst (characterSymbol names) policy text.toList i l x) :
    ∃ s, names.resolve x.kind = .ok s ∧ ∀ table, ∃ h after,
      ({ d with start := .str s } : Description).build table = (.ok h, after) ∧
      ∀ names', after.GrowsTo names' → ∃ y,
        ((Parser.mk h policy limit).parse names' (partOf text i l)).result = .ok y ∧
        (x.shift (-i)).Related (names.SameName names') y := by
  have hsound := (Description.check_eq_ok_iff.1 hcheck).2.toIsSound
  obtain ⟨s, hs, hname⟩ :=
    Grammar.exists_kindName_ofDeclarations hread hsound hp.decisive.onlyPicks hx.mem
  refine ⟨s, NameTable.resolve_of_find? hname, fun table => ?_⟩
  obtain ⟨e, after, hb, hread'⟩ :=
    Description.exists_build_of_check (Description.check_withStart hcheck hs) table
  refine ⟨_, after, hb, fun names' hnames' => ?_⟩
  have hread' := hread' names' hnames'
  have hh : (Grammar.ofDeclarations e).IsBuiltOver names' := ⟨_, _, _, hb, hnames'⟩
  -- both grammars start with the symbol of `x`, whose first tree over the part is `x` shifted
  have hrelated : ({ c' with start := x.kind } : Declarations Symbol).Related
      (names.SameName names') e :=
    (hread.related.withStart hname).through hread'.related
  have hlefts := (Grammar.relatedInOrder_ofDeclarations (names.biUnique_sameName names')
    hrelated).leftsRelated
  have hfirst : (Grammar.ofDeclarations { c' with start := x.kind }).IsFirst (characterSymbol names)
      policy (slice text.toList i l) 0 l (x.shift (-i)) := hx.shift hp x.kind
  have hstart : names.SameName names' (x.shift (-i)).kind e.start := by
    rw [Tree.kind_shift]
    exact ⟨s, hname, hread'.start⟩
  obtain ⟨y, hy, hxy⟩ := hfirst.exists_related hlefts (hpolicy _) hstart
  refine ⟨y, (parse_eq_ok_iff hh hp.decisive.staysOver).2 ⟨ha.partOf hi, ?_⟩, hxy⟩
  rw [rootTrees, toList_partOf, length_slice (by rwa [String.length_toList])]
  exact hy

/-- Parsing is local. The chart of a part of a text has over the whole part the cell that the chart
of the text has over the same characters, shifted to the left, or neither has one. And a subtree of
a returned tree is returned, shifted to the left and by names, for the part of the text that it
covers by the parser of the same declarations that starts with its symbol, over any table. -/
theorem parsing_is_local {d : Description} {g : Grammar Symbol} {before after names : NameTable}
    (hbuild : d.build before = (.ok g, after)) (hnames : after.GrowsTo names)
    {policy : Policy Symbol} (hp : policy = .rightmost ∨ policy = .leftmost) {limit : Option Int}
    {text : String} (ha : (Parser.mk g policy limit).Admits text) :
    (∃ f, (Parser.mk g policy limit).fill names text = .ok f ∧
      ∀ i l : Nat, 1 ≤ l → i + l ≤ text.length → ∃ f',
        (Parser.mk g policy limit).fill names (partOf text i l) = .ok f' ∧
        f'.chart.top? = (f.chart.get? ⟨i, l⟩).map (Cell.shift (-i))) ∧
    ∀ root, ((Parser.mk g policy limit).parse names text).result = .ok root →
      ∀ x ∈ root.nodes, x.shape ≠ .leaf → ∃ (i l : Nat) (s : String),
        x.span = ⟨i, l⟩ ∧ i + l ≤ text.length ∧ names.resolve x.kind = .ok s ∧
        ∀ table, ∃ h after, ({ d with start := .str s } : Description).build table =
            (.ok h, after) ∧
          ∀ names', after.GrowsTo names' → ∃ y,
            ((Parser.mk h policy limit).parse names' (partOf text i l)).result = .ok y ∧
            (x.shift (-i)).Related (names.SameName names') y := by
  obtain ⟨order, hprefers⟩ := Policy.exists_prefers hp
  have hpolicy : ∀ R, Policy.Related R policy policy := by
    rcases hp with rfl | rfl
    · exact Policy.rightmost_related
    · exact Policy.leftmost_related
  have hstays := hprefers.decisive.staysOver
  have hg : g.IsBuiltOver names := ⟨d, before, after, hbuild, hnames⟩
  constructor
  · obtain ⟨f, hfill, hf⟩ := exists_fill hg hstays ha
    refine ⟨f, hfill, fun i l hl hi => ?_⟩
    obtain ⟨f', hfill', hf'⟩ := exists_fill hg hstays (ha.partOf hi)
    exact ⟨f', hfill', top?_of_fills_part hprefers hf hf' hl hi⟩
  · intro root hroot x hx hshape
    obtain ⟨c, c', hcheck, hread, rfl⟩ := Description.exists_check_of_build hbuild hnames
    have hfirst : (Grammar.ofDeclarations c').IsFirst (characterSymbol names) policy text.toList 0
        text.toList.length root := by
      have hfind := ((parse_eq_ok_iff hg hstays).1 hroot).2
      have hkind := List.find?_some hfind
      rw [Grammar.IsFirst, of_decide_eq_true hkind]
      exact hfind
    obtain ⟨i, l, -, hi, hspan, hfirst⟩ := hfirst.of_mem_nodes hprefers hx hshape
    have hi : i + l ≤ text.length := by
      rw [← String.length_toList]
      omega
    obtain ⟨s, hs, hparse⟩ :=
      parse_part_of_isFirst hcheck hread hprefers hpolicy ha hi hfirst
    exact ⟨i, l, s, hspan, hi, hs, hparse⟩

/-- Three letters are a letter and a pair of letters. -/
def pairBehind : Description where
  start := .str "S"
  terminals := [.str "a"]
  nonterminals := [.str "S", .str "A", .str "B"]
  binary := [.tuple [.str "S", .str "A", .str "B"], .tuple [.str "B", .str "A", .str "A"]]
  unit := [.tuple [.str "A", .str "a"]]

/-- The grammar of `pairBehind`. -/
def pairBehindGrammar : Grammar Symbol :=
  .ofDeclarations ⟨0, [1], [0, 2, 3], [(0, 2, 3), (3, 2, 2)], [(2, 1)]⟩

/-- The table of `pairBehindGrammar`. -/
def pairBehindNames : NameTable := ⟨["S", "a", "A", "B"]⟩

/-- The pair within three letters is what is returned for two letters when the grammar starts with
the symbol of the pair. -/
theorem pair_of_three_letters : pairBehind.build .empty = (.ok pairBehindGrammar, pairBehindNames) ∧
    (ofGrammar pairBehindGrammar).Admits "aaa" ∧ ∃ root x,
      ((ofGrammar pairBehindGrammar).parse pairBehindNames "aaa").result = .ok root ∧
      x ∈ root.nodes ∧ x.shape ≠ .leaf ∧ x.span = ⟨1, 2⟩ ∧ partOf "aaa" 1 2 = "aa" ∧
      ∃ h after, ({ pairBehind with start := .str "B" } : Description).build .empty =
          (.ok h, after) ∧ ∃ y, ((ofGrammar h).parse after "aa").result = .ok y ∧
        (x.shift (-1)).Related (pairBehindNames.SameName after) y := by
  have hb : pairBehind.build .empty = (.ok pairBehindGrammar, pairBehindNames) := rfl
  have ha := ofGrammar_admits pairBehindGrammar "aaa"
  let x : Tree Symbol := .binary 3 ⟨1, 2⟩ (.unary 2 ⟨1, 1⟩) (.unary 2 ⟨1, 2⟩)
  let root : Tree Symbol := .binary 0 ⟨0, 3⟩ (.unary 2 ⟨1, 0⟩) x
  have hroot : ((ofGrammar pairBehindGrammar).parse pairBehindNames "aaa").result = .ok root :=
    eq_ok_of_toOption (by decide +kernel)
  have hx : x ∈ root.nodes := by
    rw [Tree.nodes_binary, Tree.nodes_unary, Tree.nodes_eq]
    simp
  have hshape : x.shape ≠ .leaf := by decide
  obtain ⟨-, hparts⟩ := parsing_is_local hb (.refl _) (.inl rfl) ha
  obtain ⟨i, l, s, hspan, -, hs, hlocal⟩ := hparts root hroot x hx hshape
  -- the general theorem speaks of the span and the name of `x`
  have hi : (i : Int) = 1 := (congrArg Span.start hspan).symm
  have hl : (l : Int) = 2 := (congrArg Span.length hspan).symm
  obtain rfl : i = 1 := by omega
  obtain rfl : l = 2 := by omega
  obtain rfl : s = "B" := (Except.ok.inj hs).symm
  obtain ⟨h, after, hbuild, hparse⟩ := hlocal .empty
  exact ⟨hb, ha, root, x, hroot, hx, hshape, rfl, rfl, h, after, hbuild, hparse after (.refl _)⟩

end Parser

end ChartParsing
