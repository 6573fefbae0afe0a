import ChartParsing.Proofs.Grammar.Atomicity
import ChartParsing.Proofs.GrammarText.Reordering
import ChartParsing.Proofs.Parser.ByName

/-!
# Grammars of reordered items

The handles of a grammar and the order of its rules follow the order of the items that it is read
from. By name it does not depend on them (`Grammar.SameContents`), and neither do the texts that
it recognizes; a production and the productions of its alternatives give one and the same grammar.
-/

namespace ChartParsing

open GrammarText

namespace Grammar

variable {names names' : NameTable}

/-- Two grammars, each over a table of its own, have by name the same start symbol, the same
terminals, nonterminals and rules, in any order. -/
structure SameContents (g : Grammar Symbol) (names : NameTable) (h : Grammar Symbol)
    (names' : NameTable) : Prop extends g.SameRules names h names' where
  terminals : ∀ s, (∃ a ∈ g.terminals, names.IsHandle s a) ↔
    ∃ a ∈ h.terminals, names'.IsHandle s a
  nonterminals : ∀ s, (∃ a ∈ g.nonterminals, names.IsHandle s a) ↔
    ∃ a ∈ h.nonterminals, names'.IsHandle s a

/-- The names of handles that are kept in order of first appearance. -/
theorem exists_mem_ofList_isHandle_iff {ss : List String} {as : List Symbol}
    (h : List.Forall₂ names.IsHandle ss as) {s : String} :
    (∃ a ∈ FirstSeen.ofList as, names.IsHandle s a) ↔ s ∈ ss := by
  constructor
  · rintro ⟨a, ha, hs⟩
    obtain ⟨s', hs', ha'⟩ := exists_of_mem_right h (FirstSeen.mem_ofList.1 ha)
    exact names.biUnique_isHandle.1 ha' hs ▸ hs'
  · intro hs
    obtain ⟨a, ha, hsa⟩ := exists_of_mem_left h hs
    exact ⟨a, FirstSeen.mem_ofList.2 ha, hsa⟩

/-- Declarations of the same sets give grammars with the same contents. -/
theorem sameContents_ofDeclarations {d e : Declarations String} {d' e' : Declarations Symbol}
    (h : d.IsRead names d') (h' : e.IsRead names' e') (hsame : d.SameSets e) :
    (ofDeclarations d').SameContents names (ofDeclarations e') names' where
  toSameRules := sameRules_ofDeclarations h h' hsame.start hsame.unit hsame.binary
  terminals s := (exists_mem_ofList_isHandle_iff h.terminals).trans
    ((hsame.terminals s).trans (exists_mem_ofList_isHandle_iff h'.terminals).symm)
  nonterminals s := (exists_mem_ofList_isHandle_iff h.nonterminals).trans
    ((hsame.nonterminals s).trans (exists_mem_ofList_isHandle_iff h'.nonterminals).symm)

end Grammar

namespace GrammarText

variable {items items' : List Item} {names after names' after' : NameTable}
variable {g h : Grammar Symbol}

/-- A grammar that is built of items reads the declarations that come out of the checks. -/
theorem exists_checked_of_buildItems (hb : buildItems items names = (.ok g, after)) :
    ∃ c c', ((describeItems items).mapError .flawed).bind Description.check = .ok c ∧
      c.IsRead after c' ∧ g = Grammar.ofDeclarations c' ∧ g.IsBuiltOver after := by
  obtain ⟨d, c, hd, hc, rfl, rfl⟩ := Building.exists_of_ofDescribed hb
  exact ⟨c, _, bind_eq_ok_iff.2 ⟨d, hd, hc⟩, (c.settles_intern names).2 _ (.refl _), rfl, d, names,
    _, Description.build_of_check hc, .refl _⟩

/-- Items that pass the checks build a grammar over every table. -/
theorem exists_buildItems {c : Declarations String}
    (hc : ((describeItems items).mapError .flawed).bind Description.check = .ok c)
    (names : NameTable) : ∃ g after, buildItems items names = (.ok g, after) := by
  refine ⟨.ofDeclarations (c.intern.run names).1, (c.intern.run names).2, ?_⟩
  rw [buildItems, Building.ofDescribed, hc]
  rfl

/-- Of items in another order a grammar is built as well, over every table. -/
theorem exists_buildItems_of_perm (hperm : items.Perm items')
    (hstart : (items.filterMap Item.start?).length = 1)
    (hb : buildItems items names = (.ok g, after)) (names' : NameTable) :
    ∃ h after', buildItems items' names' = (.ok h, after') := by
  obtain ⟨c, -, hc, -⟩ := exists_checked_of_buildItems hb
  obtain ⟨c', hc', -⟩ := exists_check_of_perm hperm hstart hc
  exact exists_buildItems hc' names'

/-- It has the same contents by name. -/
theorem sameContents_of_perm (hperm : items.Perm items')
    (hstart : (items.filterMap Item.start?).length = 1)
    (hb : buildItems items names = (.ok g, after))
    (hb' : buildItems items' names' = (.ok h, after')) :
    g.SameContents after h after' ∧ g.IsBuiltOver after ∧ h.IsBuiltOver after' := by
  obtain ⟨c, d, hc, hread, rfl, hg⟩ := exists_checked_of_buildItems hb
  obtain ⟨c', d', hc', hread', rfl, hh⟩ := exists_checked_of_buildItems hb'
  obtain ⟨c'', hc'', hsame⟩ := exists_check_of_perm hperm hstart hc
  obtain rfl := Except.ok.inj (hc''.symm.trans hc')
  exact ⟨Grammar.sameContents_ofDeclarations hread hread' hsame, hg, hh⟩

/-- The order and the grouping of items do not matter. Of items with one start symbol a grammar is
built in every order or in none, whatever the tables, and all of them have the same contents by
name and recognize the same texts. Of a production and of the productions of its alternatives in
its place the same comes out, handles, rule order and errors included. A text is built like its
items. -/
theorem order_and_grouping_do_not_matter :
    (∀ items items' : List Item, items.Perm items' → (items.filterMap Item.start?).length = 1 →
      ∀ names names',
        ((∃ g after, buildItems items names = (.ok g, after)) ↔
          ∃ h after', buildItems items' names' = (.ok h, after')) ∧
        ∀ g after h after', buildItems items names = (.ok g, after) →
          buildItems items' names' = (.ok h, after') →
          g.SameContents after h after' ∧
            ∀ policy : Policy Symbol, policy = .rightmost ∨ policy = .leftmost →
              ∀ limit text, (Parser.mk g policy limit).recognize after text =
                (Parser.mk h policy limit).recognize after' text) ∧
    (∀ before left alternatives after, alternatives ≠ [] →
      buildItems (before ++ .production left alternatives :: after) =
        buildItems (before ++ (alternatives.map fun symbols => .production left [symbols]) ++
          after)) ∧
    ∀ source items, GrammarText.items source = .ok items → build source = buildItems items := by
  refine ⟨fun items items' hperm hstart names names' => ⟨⟨?_, ?_⟩, ?_⟩, ?_, ?_⟩
  · rintro ⟨g, after, hb⟩
    exact exists_buildItems_of_perm hperm hstart hb names'
  · rintro ⟨h, after', hb⟩
    have hstart' : (items'.filterMap Item.start?).length = 1 :=
      (hperm.filterMap Item.start?).length_eq ▸ hstart
    exact exists_buildItems_of_perm hperm.symm hstart' hb names
  · intro g after h after' hb hb'
    obtain ⟨hsame, hg, hh⟩ := sameContents_of_perm hperm hstart hb hb'
    refine ⟨hsame, fun policy hpolicy limit text => ?_⟩
    obtain ⟨order, hprefers⟩ := Policy.exists_prefers hpolicy
    exact Parser.recognize_eq_of_sameRules hsame.toSameRules hg hh hprefers limit text
  · intro before left alternatives after hne
    rw [buildItems, buildItems, describeItems_ungrouped before left hne after]
  · intro source items hitems
    rw [build, hitems]
    rfl

/-- The items of a grammar of letters, the start symbol first. -/
def letterItems : List Item :=
  [.start "S", .production "S" [[.terminal "a"], [.nonterminal "S", .nonterminal "S"]]]

/-- The rules before the start symbol, over another table: other handles, and the same answer. -/
theorem letterItems_reversed : ∃ g after h after',
    buildItems letterItems .empty = (.ok g, after) ∧
    buildItems letterItems.reverse ⟨["a"]⟩ = (.ok h, after') ∧ g.start ≠ h.start ∧
    g.SameContents after h after' ∧
    (Parser.ofGrammar g).recognize after "aa" = (Parser.ofGrammar h).recognize after' "aa" ∧
    buildItems letterItems = buildItems [.start "S", .production "S" [[.terminal "a"]],
      .production "S" [[.nonterminal "S", .nonterminal "S"]]] := by
  have hb : buildItems letterItems .empty =
      (.ok (.ofDeclarations ⟨0, [1], [0], [(0, 0, 0)], [(0, 1)]⟩), ⟨["S", "a"]⟩) := rfl
  have hb' : buildItems letterItems.reverse ⟨["a"]⟩ =
      (.ok (.ofDeclarations ⟨1, [0], [1], [(1, 1, 1)], [(1, 0)]⟩), ⟨["a", "S"]⟩) := rfl
  obtain ⟨hperm, hgroup, -⟩ := order_and_grouping_do_not_matter
  obtain ⟨-, hsame⟩ := hperm letterItems letterItems.reverse (List.reverse_perm _).symm rfl
    .empty ⟨["a"]⟩
  obtain ⟨hcontents, hrecognize⟩ := hsame _ _ _ _ hb hb'
  exact ⟨_, _, _, _, hb, hb', by decide, hcontents, hrecognize _ (.inl rfl) none "aa",
    hgroup [.start "S"] "S" _ [] (List.cons_ne_nil _ _)⟩

end GrammarText

end ChartParsing
