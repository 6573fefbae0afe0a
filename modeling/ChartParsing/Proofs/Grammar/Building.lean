import ChartParsing.Grammar.Samples
import ChartParsing.Parser.Basic
import ChartParsing.Proofs.Grammar.Checking
import ChartParsing.Proofs.Grammar.Renaming
import ChartParsing.Proofs.Naming

/-!
# Grammars that are built over a name table

`Grammar.IsBuiltOver` holds of every grammar that comes out of a description, over the table
that it was built with and over all that this table grows to. Such a grammar has sound
indexes, and each terminal that its unit rules expand to is the handle of one character: the
symbol that the parser looks up for a character is that terminal exactly when the terminal
spells the character.
-/

namespace ChartParsing

/-- Whether a symbol is a handle of the name that one character makes. -/
def NameTable.Spells (names : NameTable) (x : Symbol) (c : Char) : Prop :=
  names.resolve x = .ok (String.singleton c)

/-- A symbol is the handle of a name. -/
def NameTable.IsHandle (names : NameTable) (s : String) (x : Symbol) : Prop :=
  names.find? s = some x

theorem NameTable.biUnique_isHandle (names : NameTable) : Relator.BiUnique names.IsHandle := by
  refine ⟨fun s s' x h h' => ?_, fun s x x' h h' => ?_⟩
  · exact Except.ok.inj ((resolve_of_find? h).symm.trans (resolve_of_find? h'))
  · exact Option.some.inj (h.symm.trans h')

theorem exists_eq_singleton {s : String} (h : s.length = 1) : ∃ c, s = String.singleton c := by
  obtain ⟨c, hc⟩ := List.length_eq_one_iff.1 h
  refine ⟨c, String.toList_inj.1 ?_⟩
  rw [hc, String.toList_singleton]

namespace Declarations

variable {t : NameTable} {d : Declarations String} {d' : Declarations Symbol}

/-- A unit rule over handles is a rule over names, read in a table. -/
def UnitIsRead (t : NameTable) (r : String × String) (r' : Symbol × Symbol) : Prop :=
  t.find? r.1 = some r'.1 ∧ t.find? r.2 = some r'.2

/-- A binary rule over handles is a rule over names, read in a table. -/
def BinaryIsRead (t : NameTable) (r : String × String × String)
    (r' : Symbol × Symbol × Symbol) : Prop :=
  t.find? r.1 = some r'.1 ∧ t.find? r.2.1 = some r'.2.1 ∧ t.find? r.2.2 = some r'.2.2

/-- Declarations over handles are declarations over names, read in a table. -/
structure IsRead (t : NameTable) (d : Declarations String) (d' : Declarations Symbol) : Prop where
  start : t.find? d.start = some d'.start
  terminals : List.Forall₂ (fun s h => t.find? s = some h) d.terminals d'.terminals
  nonterminals : List.Forall₂ (fun s h => t.find? s = some h) d.nonterminals d'.nonterminals
  binary : List.Forall₂ (BinaryIsRead t) d.binary d'.binary
  unit : List.Forall₂ (UnitIsRead t) d.unit d'.unit

/-- Handles that are given out for declarations are the handles of their names for good. -/
theorem settles_intern (d : Declarations String) : Settles d.intern fun t => d.IsRead t := by
  have names : ∀ l : List String, Settles (l.mapM NameTable.intern) fun t hs =>
      List.Forall₂ (fun s h => t.find? s = some h) l hs := .mapM .intern
  unfold intern
  apply Settles.bind (.intern d.start)
  intro start
  apply Settles.bind (names d.terminals)
  intro terminals
  apply Settles.bind (names d.nonterminals)
  intro nonterminals
  refine Settles.bind (.mapM (R := BinaryIsRead) (fun r => ?_) d.binary) fun binary => ?_
  · apply Settles.bind (.intern r.1)
    intro a
    apply Settles.bind (.intern r.2.1)
    intro b
    apply Settles.bind (.intern r.2.2)
    intro c
    exact .pure fun t hc hb ha => ⟨ha, hb, hc⟩
  refine Settles.bind (.mapM (R := UnitIsRead) (fun r => ?_) d.unit) fun unit => ?_
  · apply Settles.bind (.intern r.1)
    intro a
    apply Settles.bind (.intern r.2)
    intro x
    exact .pure fun t hx ha => ⟨ha, hx⟩
  exact .pure fun t hu hb hn ht hs => ⟨hs, ht, hn, hb, hu⟩

/-- A unit rule over handles comes from a rule over names. -/
theorem IsRead.exists_unit (h : d.IsRead t d') {r' : Symbol × Symbol} (hr : r' ∈ d'.unit) :
    ∃ r ∈ d.unit, UnitIsRead t r r' :=
  exists_of_mem_right h.unit hr

/-- The names of a unit rule of the grammar of handles. -/
theorem IsRead.exists_unitNames (h : d.IsRead t d') {s : String} {a x : Symbol}
    (hs : t.IsHandle s a) (hx : x ∈ (Grammar.ofDeclarations d').unitRules.get a) :
    ∃ right, (s, right) ∈ d.unit ∧ t.IsHandle right x := by
  obtain ⟨r, hr, hleft, hright⟩ := h.exists_unit (Grammar.mem_get_unitRules.1 hx)
  obtain rfl := t.biUnique_isHandle.1 hleft hs
  exact ⟨r.2, hr, hright⟩

/-- The handles of a unit rule over names. -/
theorem IsRead.exists_unitRule (h : d.IsRead t d') {s right : String} {a : Symbol}
    (hs : t.IsHandle s a) (hr : (s, right) ∈ d.unit) :
    ∃ x, t.IsHandle right x ∧ x ∈ (Grammar.ofDeclarations d').unitRules.get a := by
  obtain ⟨r, hr, hleft, hright⟩ := exists_of_mem_left h.unit hr
  obtain rfl := t.biUnique_isHandle.2 hleft hs
  exact ⟨r.2, hright, Grammar.mem_get_unitRules.2 hr⟩

/-- The names of a binary rule of the grammar of handles. -/
theorem IsRead.exists_binaryNames (h : d.IsRead t d') {s : String} {a b c : Symbol}
    (hs : t.IsHandle s a) (hbc : (b, c) ∈ (Grammar.ofDeclarations d').binaryRules.get a) :
    ∃ first second, (s, first, second) ∈ d.binary ∧ t.IsHandle first b ∧ t.IsHandle second c := by
  obtain ⟨r, hr, hleft, hfirst, hsecond⟩ :=
    exists_of_mem_right h.binary (Grammar.mem_get_binaryRules.1 hbc)
  obtain rfl := t.biUnique_isHandle.1 hleft hs
  exact ⟨r.2.1, r.2.2, hr, hfirst, hsecond⟩

/-- The handles of a binary rule over names. -/
theorem IsRead.exists_binaryRule (h : d.IsRead t d') {s first second : String} {a : Symbol}
    (hs : t.IsHandle s a) (hr : (s, first, second) ∈ d.binary) :
    ∃ b c, t.IsHandle first b ∧ t.IsHandle second c ∧
      (b, c) ∈ (Grammar.ofDeclarations d').binaryRules.get a := by
  obtain ⟨r, hr, hleft, hfirst, hsecond⟩ := exists_of_mem_left h.binary hr
  obtain rfl := t.biUnique_isHandle.2 hleft hs
  exact ⟨r.2.1, r.2.2, hfirst, hsecond, Grammar.mem_get_binaryRules.2 hr⟩

/-- Reading relates names to their handles. -/
theorem IsRead.related (h : d.IsRead t d') : d.Related t.IsHandle d' :=
  ⟨h.start, h.terminals, h.nonterminals, h.binary, h.unit⟩

/-- Sound declarations stay sound when they are read. -/
theorem IsRead.isSound (h : d.IsRead t d') (hd : d.IsSound) : d'.IsSound :=
  h.related.isSound t.biUnique_isHandle hd

end Declarations

namespace Description

variable {d : Description} {names : NameTable}

theorem build_of_check {c : Declarations String} (h : d.check = .ok c) :
    d.build names =
      (.ok (Grammar.ofDeclarations (c.intern.run names).1), (c.intern.run names).2) := by
  show Building.ofChecked d.check names = _
  rw [h]
  rfl

/-- Checked declarations are built, over any table, as their reading in what the table becomes. -/
theorem exists_build_of_check {c : Declarations String} (h : d.check = .ok c)
    (before : NameTable) : ∃ c' after, d.build before = (.ok (Grammar.ofDeclarations c'), after) ∧
      ∀ names, after.GrowsTo names → c.IsRead names c' :=
  ⟨_, _, build_of_check h, (c.settles_intern before).2⟩

theorem build_of_check_error {e : BuildError} (h : d.check = .error e) :
    d.build names = (.error e, names) := by
  show Building.ofChecked d.check names = _
  rw [h]
  rfl

/-- What is built of a description is the reading of its checked declarations. -/
theorem exists_check_of_build {g : Grammar Symbol} {before after : NameTable}
    (h : d.build before = (.ok g, after)) (hnames : after.GrowsTo names) :
    ∃ c c', d.check = .ok c ∧ c.IsRead names c' ∧ g = Grammar.ofDeclarations c' := by
  cases hc : d.check with
  | error e =>
    rw [build_of_check_error hc] at h
    cases h
  | ok c =>
    rw [build_of_check hc] at h
    cases h
    exact ⟨c, _, rfl, (c.settles_intern before).2 names hnames, rfl⟩

end Description

namespace Grammar

/-- A grammar comes out of a description over a table that may have grown since. -/
def IsBuiltOver (g : Grammar Symbol) (names : NameTable) : Prop :=
  ∃ (d : Description) (before after : NameTable),
    d.build before = (.ok g, after) ∧ after.GrowsTo names

/-- The symbols that are looked up for characters are the terminals that spell them. -/
structure Reads {σ : Type} [DecidableEq σ] (g : Grammar σ) (lookup : Char → Option σ)
    (spells : σ → Char → Prop) : Prop where
  isIndexed : g.IsIndexed
  lookup_iff : ∀ a t, t ∈ g.unitRules.get a → ∀ c, lookup c = some t ↔ spells t c

variable {g : Grammar Symbol} {names : NameTable}

/-- What a builder builds comes out of the description that it gives. -/
theorem isBuiltOver_of_build {b : Builder} {before after : NameTable}
    (h : b.build before = (.ok g, after)) : g.IsBuiltOver after := by
  unfold Builder.build Building.ofDescribed at h
  cases hd : b.describe with
  | error e =>
    rw [hd] at h
    cases h
  | ok d =>
    rw [hd] at h
    exact ⟨d, before, after, h, .refl after⟩

/-- What a grammar was built from: consistent declarations, read in the table. -/
theorem IsBuiltOver.exists_declarations (h : g.IsBuiltOver names) :
    ∃ (c : Declarations String) (c' : Declarations Symbol),
      c.IsConsistent ∧ c.IsRead names c' ∧ g = ofDeclarations c' := by
  obtain ⟨d, before, after, hb, hg⟩ := h
  obtain ⟨c, c', hc, hread, rfl⟩ := Description.exists_check_of_build hb hg
  exact ⟨c, c', (Description.check_eq_ok_iff.1 hc).2, hread, rfl⟩

/-- The start symbol of a built grammar has a name. -/
theorem IsBuiltOver.exists_start (h : g.IsBuiltOver names) :
    ∃ name, names.resolve g.start = .ok name := by
  obtain ⟨c, c', -, hread, rfl⟩ := h.exists_declarations
  exact ⟨c.start, NameTable.resolve_of_find? hread.start⟩

/-- A unit rule of a built grammar expands to the handle of one character. -/
theorem IsBuiltOver.exists_character (h : g.IsBuiltOver names) {a t : Symbol}
    (ht : t ∈ g.unitRules.get a) : ∃ c, names.find? (String.singleton c) = some t := by
  obtain ⟨c, c', hc, hread, rfl⟩ := h.exists_declarations
  obtain ⟨r, hr, -, hfind⟩ := hread.exists_unit (mem_get_unitRules.1 ht)
  obtain ⟨x, hx⟩ := exists_eq_singleton (hc.length_eq r.2 (hc.unit_mem r hr).2)
  exact ⟨x, hx ▸ hfind⟩

/-- A built grammar reads texts through its table. -/
theorem IsBuiltOver.reads (h : g.IsBuiltOver names) :
    g.Reads (Parser.characterSymbol names) names.Spells where
  isIndexed := by
    obtain ⟨c, c', hc, hread, rfl⟩ := h.exists_declarations
    apply isIndexed_ofDeclarations
    exact fun a t ht => ((hread.isSound hc.toIsSound).unit_mem (a, t) ht).2
  lookup_iff a t ht c := by
    obtain ⟨x, hx⟩ := h.exists_character ht
    exact NameTable.find?_eq_some_iff_resolve hx

/-- The grammar that `Builder.ambiguous` builds over an empty table. -/
def letters : Grammar Symbol :=
  ofDeclarations ⟨0, [1], [0], [(0, 0, 0)], [(0, 1)]⟩

/-- The table of `letters`. -/
def letterNames : NameTable := ⟨["S", "a"]⟩

theorem letters_isBuiltOver : letters.IsBuiltOver letterNames :=
  isBuiltOver_of_build (show Builder.ambiguous.build .empty = (.ok letters, letterNames) from rfl)

end Grammar

end ChartParsing
