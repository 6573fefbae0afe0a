import ChartParsing.Proofs.Chart.WinningSplit
import ChartParsing.Proofs.Parser.Failures

/-!
# What a grammar says by names

Handles mean nothing without their table, so two grammars are compared by the names of their
rules (`Grammar.HasUnitRule`, `Grammar.HasBinaryRule`). With a policy that goes by the splits
alone, the names of the symbols over a span depend on these rules and on nothing else
(`Grammar.SameRules.hasKind_iff`): grammars with the same rules by name recognize the same
texts and mark the same characters.
-/

namespace ChartParsing

namespace Grammar

/-- A grammar has a unit rule between symbols with two names. -/
def HasUnitRule (g : Grammar Symbol) (names : NameTable) (left right : String) : Prop :=
  ∃ a t, names.IsHandle left a ∧ names.IsHandle right t ∧ t ∈ g.unitRules.get a

/-- A grammar has a binary rule between symbols with three names. -/
def HasBinaryRule (g : Grammar Symbol) (names : NameTable) (left first second : String) : Prop :=
  ∃ a b c, names.IsHandle left a ∧ names.IsHandle first b ∧ names.IsHandle second c ∧
    (b, c) ∈ g.binaryRules.get a

/-- Two grammars, each over a table of its own, have the same start symbol and the same rules
by name. -/
structure SameRules (g : Grammar Symbol) (names : NameTable) (h : Grammar Symbol)
    (names' : NameTable) : Prop where
  start : names.resolve g.start = names'.resolve h.start
  unit : ∀ left right, g.HasUnitRule names left right ↔ h.HasUnitRule names' left right
  binary : ∀ left first second,
    g.HasBinaryRule names left first second ↔ h.HasBinaryRule names' left first second

/-- A symbol with a name has a tree over a span. -/
def HasKind (g : Grammar Symbol) (names : NameTable) (policy : Policy Symbol) (text : List Char)
    (i l : Nat) (s : String) : Prop :=
  ∃ t ∈ g.treesAt (Parser.characterSymbol names) policy text i l, names.IsHandle s t.kind

/-- A rule joins symbols with trees over the two parts of a span to a symbol with a name. -/
def JoinsKind (g : Grammar Symbol) (names : NameTable) (policy : Policy Symbol)
    (text : List Char) (i l k : Nat) (s : String) : Prop :=
  0 < k ∧ k < l ∧ ∃ first second, g.HasBinaryRule names s first second ∧
    g.HasKind names policy text i k first ∧ g.HasKind names policy text (i + k) (l - k) second

variable {g : Grammar Symbol} {names : NameTable}

/-- The start symbol of a built grammar is the handle of a name. -/
theorem IsBuiltOver.exists_handle_start (hg : g.IsBuiltOver names) :
    ∃ start, names.IsHandle start g.start := by
  obtain ⟨d, d', -, hread, rfl⟩ := hg.exists_declarations
  exact ⟨d.start, hread.start⟩

/-- The symbols of a unit rule of a built grammar have names. -/
theorem IsBuiltOver.exists_unitNames (hg : g.IsBuiltOver names) {a t : Symbol}
    (h : t ∈ g.unitRules.get a) :
    ∃ left right, names.IsHandle left a ∧ names.IsHandle right t := by
  obtain ⟨d, d', -, hread, rfl⟩ := hg.exists_declarations
  obtain ⟨r, -, hleft, hright⟩ := hread.exists_unit (mem_get_unitRules.1 h)
  exact ⟨r.1, r.2, hleft, hright⟩

/-- The symbols of a binary rule of a built grammar have names. -/
theorem IsBuiltOver.exists_names (hg : g.IsBuiltOver names) {a b c : Symbol}
    (h : (b, c) ∈ g.binaryRules.get a) : ∃ left first second,
      names.IsHandle left a ∧ names.IsHandle first b ∧ names.IsHandle second c := by
  obtain ⟨d, d', -, hread, rfl⟩ := hg.exists_declarations
  obtain ⟨r, -, hleft, hfirst, hsecond⟩ :=
    exists_of_mem_right hread.binary (mem_get_binaryRules.1 h)
  exact ⟨r.1, r.2.1, r.2.2, hleft, hfirst, hsecond⟩

section Declared

variable {d e : Declarations String} {d' e' : Declarations Symbol} {names' : NameTable}
variable {left right first second : String}

/-- The unit rules by name of a grammar are those that were declared. -/
theorem hasUnitRule_ofDeclarations (h : d.IsRead names d') :
    (ofDeclarations d').HasUnitRule names left right ↔ (left, right) ∈ d.unit := by
  constructor
  · rintro ⟨a, t, ha, ht, hmem⟩
    obtain ⟨right', hr, hright⟩ := h.exists_unitNames ha hmem
    exact names.biUnique_isHandle.1 hright ht ▸ hr
  · intro hr
    obtain ⟨r', -, hleft, -⟩ := exists_of_mem_left h.unit hr
    obtain ⟨t, hright, hmem⟩ := h.exists_unitRule hleft hr
    exact ⟨r'.1, t, hleft, hright, hmem⟩

/-- The binary rules by name of a grammar are those that were declared. -/
theorem hasBinaryRule_ofDeclarations (h : d.IsRead names d') :
    (ofDeclarations d').HasBinaryRule names left first second ↔
      (left, first, second) ∈ d.binary := by
  constructor
  · rintro ⟨a, b, c, ha, hb, hc, hmem⟩
    obtain ⟨first', second', hr, hfirst, hsecond⟩ := h.exists_binaryNames ha hmem
    obtain rfl := names.biUnique_isHandle.1 hfirst hb
    obtain rfl := names.biUnique_isHandle.1 hsecond hc
    exact hr
  · intro hr
    obtain ⟨r', -, hleft, -⟩ := exists_of_mem_left h.binary hr
    obtain ⟨b, c, hfirst, hsecond, hmem⟩ := h.exists_binaryRule hleft hr
    exact ⟨r'.1, b, c, hleft, hfirst, hsecond, hmem⟩

/-- Declarations with one start symbol and the same rules, in any order and with any repetitions,
give grammars with the same rules by name. -/
theorem sameRules_ofDeclarations (h : d.IsRead names d') (h' : e.IsRead names' e')
    (hstart : d.start = e.start) (hunit : ∀ r, r ∈ d.unit ↔ r ∈ e.unit)
    (hbinary : ∀ r, r ∈ d.binary ↔ r ∈ e.binary) :
    (ofDeclarations d').SameRules names (ofDeclarations e') names' where
  start := by
    have hresolve : names.resolve d'.start = .ok d.start := NameTable.resolve_of_find? h.start
    have hresolve' : names'.resolve e'.start = .ok e.start := NameTable.resolve_of_find? h'.start
    show names.resolve d'.start = names'.resolve e'.start
    rw [hresolve, hresolve', hstart]
  unit left right := by
    rw [hasUnitRule_ofDeclarations h, hasUnitRule_ofDeclarations h', hunit]
  binary left first second := by
    rw [hasBinaryRule_ofDeclarations h, hasBinaryRule_ofDeclarations h', hbinary]

end Declared

section Kinds

variable {policy : Policy Symbol} {text : List Char} {i l k : Nat} {s : String}

/-- A tree over handles has the symbol of a nonterminal that was declared. -/
theorem exists_kindName_ofDeclarations {d : Declarations String} {d' : Declarations Symbol}
    (h : d.IsRead names d') (hd : d.IsSound) (hp : policy.OnlyPicks) {t : Tree Symbol}
    {lookup : Char → Option Symbol} (ht : t ∈ (ofDeclarations d').treesAt lookup policy text i l) :
    ∃ s ∈ d.nonterminals, names.IsHandle s t.kind := by
  have hkind := (isSound_ofDeclarations (h.isSound hd)).kind_mem hp ht
  exact exists_of_mem_right h.nonterminals (FirstSeen.mem_ofList.1 hkind)

/-- The symbol of a tree that a policy picks has a name. -/
theorem IsBuiltOver.exists_kindName (hg : g.IsBuiltOver names) (hp : policy.OnlyPicks)
    {t : Tree Symbol} {lookup : Char → Option Symbol}
    (ht : t ∈ g.treesAt lookup policy text i l) : ∃ s, names.IsHandle s t.kind := by
  obtain ⟨d, d', hd, hread, rfl⟩ := hg.exists_declarations
  obtain ⟨s, -, hs⟩ := exists_kindName_ofDeclarations hread hd.toIsSound hp ht
  exact ⟨s, hs⟩

theorem not_hasKind_zero : ¬g.HasKind names policy text i 0 s := by
  rintro ⟨t, ht, -⟩
  rw [treesAt_zero] at ht
  cases ht

theorem hasKind_one : g.HasKind names policy text i 1 s ↔
    ∃ c, text[i]? = some c ∧ g.HasUnitRule names s (String.singleton c) := by
  rw [HasKind, treesAt_one]
  constructor
  · rintro ⟨t, ht, hs⟩
    obtain ⟨a, x, c, hc, hx, ha, rfl⟩ := mem_characterTrees.1 ht
    exact ⟨c, hc, a, x, hs, hx, ha⟩
  · rintro ⟨c, hc, a, x, hs, hx, ha⟩
    exact ⟨.unary a ⟨x, i⟩, mem_characterTrees.2 ⟨a, x, c, hc, hx, ha, rfl⟩, hs⟩

variable (hg : g.IsBuiltOver names)

include hg

/-- The names of the trees that a split joins. -/
theorem exists_joinedAt_named_iff (hk : 0 < k) (hkl : k < l) :
    (∃ t ∈ g.joinedAt (Parser.characterSymbol names) policy text i l k, names.IsHandle s t.kind) ↔
      g.JoinsKind names policy text i l k s := by
  have hjoined : ∀ a, (∃ t ∈ g.joinedAt (Parser.characterSymbol names) policy text i l k,
      t.kind = a) ↔ _ := fun a => exists_mem_joinedTrees_iff
  constructor
  · rintro ⟨t, ht, hs⟩
    obtain ⟨b, c, hrule, ⟨x, hx, rfl⟩, y, hy, rfl⟩ := (hjoined t.kind).1 ⟨t, ht, rfl⟩
    obtain ⟨-, first, second, -, hfirst, hsecond⟩ := hg.exists_names hrule
    exact ⟨hk, hkl, first, second, ⟨_, _, _, hs, hfirst, hsecond, hrule⟩, ⟨x, hx, hfirst⟩,
      y, hy, hsecond⟩
  · rintro ⟨-, -, first, second, ⟨a, b, c, hs, hfirst, hsecond, hrule⟩, ⟨x, hx, hfirst'⟩,
      y, hy, hsecond'⟩
    -- a name has one handle
    obtain rfl := names.biUnique_isHandle.2 hfirst hfirst'
    obtain rfl := names.biUnique_isHandle.2 hsecond hsecond'
    obtain ⟨t, ht, rfl⟩ := (hjoined a).2 ⟨_, _, hrule, ⟨x, hx, rfl⟩, y, hy, rfl⟩
    exact ⟨t, ht, hs⟩

/-- A split joins something when it joins something with a name. -/
theorem mem_joiningSplits_iff :
    k ∈ g.joiningSplits (Parser.characterSymbol names) policy text i l ↔
      ∃ s, g.JoinsKind names policy text i l k s := by
  constructor
  · rintro ⟨hk, hkl, hne⟩
    obtain ⟨t, ht⟩ := List.exists_mem_of_ne_nil _ hne
    obtain ⟨b, c, hrule, -⟩ := exists_mem_joinedTrees_iff.1 ⟨t, ht, rfl⟩
    obtain ⟨left, -, -, hleft, -⟩ := hg.exists_names hrule
    exact ⟨left, (exists_joinedAt_named_iff hg hk hkl).1 ⟨t, ht, hleft⟩⟩
  · rintro ⟨s, hs⟩
    obtain ⟨t, ht, -⟩ := (exists_joinedAt_named_iff hg hs.1 hs.2.1).2 hs
    exact ⟨hs.1, hs.2.1, List.ne_nil_of_mem ht⟩

/-- Over more than one character the preferred split that joins anything decides. -/
theorem hasKind_of_two_le {order : Int → Int → Prop} (hp : policy.Prefers order) (hl : 2 ≤ l) :
    g.HasKind names policy text i l s ↔ ∃ k, g.JoinsKind names policy text i l k s ∧
      ∀ m s', g.JoinsKind names policy text i l m s' → order m k := by
  constructor
  · rintro ⟨t, ht, hs⟩
    obtain ⟨k, hk⟩ := (treesAt_ne_nil_iff hp hl).1 (List.ne_nil_of_mem ht)
    rw [treesAt_eq_joinedAt hp hk] at ht
    obtain ⟨hpos, hlt, -⟩ := hk.joins
    refine ⟨k, (exists_joinedAt_named_iff hg hpos hlt).1 ⟨t, ht, hs⟩, fun m s' hm => ?_⟩
    exact hk.best m ((mem_joiningSplits_iff hg).2 ⟨s', hm⟩)
  · rintro ⟨k, hk, hbest⟩
    have hwins : g.Wins (Parser.characterSymbol names) policy text order i l k := by
      refine ⟨(mem_joiningSplits_iff hg).2 ⟨s, hk⟩, fun m hm => ?_⟩
      obtain ⟨s', hs'⟩ := (mem_joiningSplits_iff hg).1 hm
      exact hbest m s' hs'
    obtain ⟨t, ht, hs⟩ := (exists_joinedAt_named_iff hg hk.1 hk.2.1).2 hk
    exact ⟨t, treesAt_eq_joinedAt hp hwins ▸ ht, hs⟩

end Kinds

section TwoGrammars

variable {h : Grammar Symbol} {names' : NameTable}

/-- Start symbols that are read alike have one name. -/
theorem IsBuiltOver.exists_shared_start (hg : g.IsBuiltOver names) (hh : h.IsBuiltOver names')
    (hresolve : names.resolve g.start = names'.resolve h.start) :
    ∃ start, names.IsHandle start g.start ∧ names'.IsHandle start h.start := by
  obtain ⟨start, hstart⟩ := hg.exists_handle_start
  obtain ⟨start', hstart'⟩ := hh.exists_handle_start
  rw [NameTable.resolve_of_find? hstart, NameTable.resolve_of_find? hstart'] at hresolve
  obtain rfl := Except.ok.inj hresolve
  exact ⟨start, hstart, hstart'⟩

/-- The start symbols of grammars with the same rules by name have one name. -/
theorem SameRules.exists_handle_start (hsame : g.SameRules names h names')
    (hg : g.IsBuiltOver names) (hh : h.IsBuiltOver names') :
    ∃ start, names.IsHandle start g.start ∧ names'.IsHandle start h.start :=
  hg.exists_shared_start hh hsame.start

end TwoGrammars

/-- Grammars with the same rules by name have symbols of the same names over each span. -/
theorem SameRules.hasKind_iff {h : Grammar Symbol} {names' : NameTable}
    (hsame : g.SameRules names h names') (hg : g.IsBuiltOver names) (hh : h.IsBuiltOver names')
    {order : Int → Int → Prop} {policy : Policy Symbol} (hp : policy.Prefers order)
    (text : List Char) (i l : Nat) (s : String) :
    g.HasKind names policy text i l s ↔ h.HasKind names' policy text i l s := by
  induction l using Nat.strongRecOn generalizing i s with
  | _ l ih =>
    match l with
    | 0 => exact iff_of_false not_hasKind_zero not_hasKind_zero
    | 1 => simp only [hasKind_one, hsame.unit]
    | l + 2 =>
      have hjoins : ∀ k s, g.JoinsKind names policy text i (l + 2) k s ↔
          h.JoinsKind names' policy text i (l + 2) k s := by
        intro k s
        refine and_congr_right fun hk => and_congr_right fun hkl => ?_
        simp only [hsame.binary, ih k hkl, ih (l + 2 - k) (by omega)]
      rw [hasKind_of_two_le hg hp (by omega), hasKind_of_two_le hh hp (by omega)]
      simp only [hjoins]

/-- A character is accounted for by the names of the unit rules. -/
theorem IsBuiltOver.accountsFor_iff_hasUnitRule (hg : g.IsBuiltOver names) {c : Char} :
    g.accountsFor names c = true ↔ ∃ left, g.HasUnitRule names left (String.singleton c) := by
  rw [hg.accountsFor_iff]
  constructor
  · rintro ⟨a, t, ht, hc⟩
    have hhandle : names.IsHandle (String.singleton c) t := (hg.reads.lookup_iff a t ht c).2 hc
    obtain ⟨left, -, hleft, -⟩ := hg.exists_unitNames ht
    exact ⟨left, a, t, hleft, hhandle, ht⟩
  · rintro ⟨left, a, t, -, hc, ht⟩
    exact ⟨a, t, ht, NameTable.resolve_of_find? hc⟩

/-- Grammars with the same unit rules by name account for the same characters. -/
theorem IsBuiltOver.accountsFor_eq {h : Grammar Symbol} {names' : NameTable}
    (hg : g.IsBuiltOver names) (hh : h.IsBuiltOver names')
    (hunit : ∀ left right, g.HasUnitRule names left right ↔ h.HasUnitRule names' left right) :
    g.accountsFor names = h.accountsFor names' := by
  funext c
  rw [Bool.eq_iff_iff, hg.accountsFor_iff_hasUnitRule, hh.accountsFor_iff_hasUnitRule]
  simp only [hunit]

end Grammar

namespace Parser

variable {g h : Grammar Symbol} {names names' : NameTable} {policy : Policy Symbol}
variable {limit : Option Int} {text : String}

/-- A parser recognizes the texts over which its start symbol has a tree. -/
theorem recognize_iff_hasKind (hg : g.IsBuiltOver names) (hp : policy.StaysOver)
    (ha : (Parser.mk g policy limit).Admits text) {start : String}
    (hstart : names.IsHandle start g.start) :
    (Parser.mk g policy limit).recognize names text = .ok true ↔
      g.HasKind names policy text.toList 0 text.toList.length start := by
  rw [recognize_eq_ok_true_iff hg hp ha]
  constructor
  · rintro ⟨t, ht, hkind⟩
    exact ⟨t, ht, by rwa [hkind]⟩
  · rintro ⟨t, ht, hs⟩
    exact ⟨t, ht, names.biUnique_isHandle.2 hs hstart⟩

/-- A text beyond the limit is refused, whatever the grammar. -/
theorem exists_limit_of_not_admits (h : ¬(Parser.mk g policy limit).Admits text) :
    ∃ bound, limit = some bound ∧ bound < text.length := by
  unfold Admits at h
  simp only [not_forall, not_le] at h
  obtain ⟨bound, hbound, hlt⟩ := h
  exact ⟨bound, hbound, hlt⟩

/-- Two parsers agree on two texts of one length when the names over the whole texts are the same
and the start symbols have one name. -/
theorem recognize_eq_of_hasKind {policy' : Policy Symbol} {text' : String}
    (hg : g.IsBuiltOver names) (hh : h.IsBuiltOver names') (hp : policy.StaysOver)
    (hp' : policy'.StaysOver) (hstart : names.resolve g.start = names'.resolve h.start)
    (hlength : text'.length = text.length)
    (hkinds : ∀ s, g.HasKind names policy text.toList 0 text.toList.length s ↔
      h.HasKind names' policy' text'.toList 0 text'.toList.length s) :
    (Parser.mk g policy limit).recognize names text =
      (Parser.mk h policy' limit).recognize names' text' := by
  by_cases ha : (Parser.mk g policy limit).Admits text
  · obtain ⟨start, hname, hname'⟩ := hg.exists_shared_start hh hstart
    have ha' : (Parser.mk h policy' limit).Admits text' := fun bound hbound => by
      rw [hlength]
      exact ha bound hbound
    obtain ⟨b, hb, -⟩ := recognize_of_admits hg hp ha
    obtain ⟨b', hb', -⟩ := recognize_of_admits hh hp' ha'
    have hiff := recognize_iff_hasKind hg hp ha hname
    have hiff' := recognize_iff_hasKind hh hp' ha' hname'
    rw [hb, Except.ok.injEq] at hiff
    rw [hb', Except.ok.injEq, ← hkinds, ← hiff] at hiff'
    rw [hb, hb', Bool.eq_iff_iff.2 hiff']
  · obtain ⟨bound, rfl, hlt⟩ := exists_limit_of_not_admits ha
    rw [(answers_of_fill_eq_error (fill_of_limit_lt rfl hlt)).1,
      (answers_of_fill_eq_error (fill_of_limit_lt rfl (hlength ▸ hlt))).1, hlength]

variable (hsame : g.SameRules names h names') (hg : g.IsBuiltOver names)
  (hh : h.IsBuiltOver names')

include hsame hg hh

/-- Grammars with the same rules by name recognize the same texts. -/
theorem recognize_eq_of_sameRules {order : Int → Int → Prop} (hp : policy.Prefers order)
    (limit : Option Int) (text : String) :
    (Parser.mk g policy limit).recognize names text =
      (Parser.mk h policy limit).recognize names' text := by
  have hstays := hp.decisive.staysOver
  refine recognize_eq_of_hasKind hg hh hstays hstays hsame.start rfl fun s => ?_
  exact hsame.hasKind_iff hg hh hp text.toList 0 text.toList.length s

/-- Grammars with the same rules by name mark the same characters of a text. -/
theorem diagnostics_eq_of_sameRules (hp : policy.StaysOver) (limit : Option Int) (text : String) :
    ((Parser.mk g policy limit).fill names text).map (·.chart.diagnostics) =
      ((Parser.mk h policy limit).fill names' text).map (·.chart.diagnostics) := by
  by_cases ha : (Parser.mk g policy limit).Admits text
  · have ha' : (Parser.mk h policy limit).Admits text := ha
    by_cases hne : text = ""
    · subst hne
      rw [fill_of_admits ha, fill_of_admits ha']
      rfl
    · obtain ⟨f, hfill, hf⟩ := exists_fill hg hp ha
      obtain ⟨f', hfill', hf'⟩ := exists_fill hh hp ha'
      have hdiagnostics : f.chart.diagnostics = f'.chart.diagnostics := by
        rw [diagnostics_of_fills hg hf hne, diagnostics_of_fills hh hf' hne]
        exact congrArg (diagnosticsOn · text.toList) (hg.accountsFor_eq hh hsame.unit)
      rw [hfill, hfill']
      exact congrArg Except.ok hdiagnostics
  · obtain ⟨bound, rfl, hlt⟩ := exists_limit_of_not_admits ha
    rw [fill_of_limit_lt rfl hlt, fill_of_limit_lt rfl hlt]

end Parser

end ChartParsing
