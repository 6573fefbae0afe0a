import ChartParsing.Grammar.Samples
import ChartParsing.Proofs.Grammar.Atomicity
import ChartParsing.Proofs.GrammarText.Reordering

/-!
# Items as calls of a builder

A list of items can be fed to a builder instead of being collected: `builderCalls` walks the items
and makes one call for each thing that they declare. The builder and the reader check the lengths of
rules, drop repeated names and tell unit rules from binary ones at different moments, and still
describe the same grammar or the same first flaw (`describe_fed`), so that both are one front end
(`builder_builds_what_items_build`).
-/

namespace ChartParsing

/-- What is wrong with the length of a rule. -/
def Rule.lengthFlaw? (r : Rule String) : Option Flaw :=
  if r.right.length = 1 ∨ r.right.length = 2 then none else some (.badLength (.str r.left) r.right)

theorem Rule.lengthFlaw?_eq_none_iff {r : Rule String} :
    r.lengthFlaw? = none ↔ GrammarText.IsShort r := by
  simp [lengthFlaw?, GrammarText.IsShort, isUnit, isBinary, Decidable.or_iff_not_imp_left]

namespace Builder

theorem applyAll_append (b : Builder) (calls calls' : List BuilderCall) :
    b.applyAll (calls ++ calls') = (b.applyAll calls).bind fun b => b.applyAll calls' := by
  induction calls generalizing b with
  | nil => rfl
  | cons call calls ih =>
    rw [List.cons_append, applyAll, applyAll]
    split
    · exact ih _
    · rfl

theorem joinable_map_str (position : Nat) (ss : List String) :
    joinable position (ss.map .str) = .ok ss := by
  induction ss generalizing position with
  | nil => rfl
  | cons s ss ih =>
    rw [List.map_cons, joinable, ih]
    rfl

theorem checkNames_map_str (ss : List String) : checkNames (ss.map .str) = .ok () := by
  have hnone : Value.firstMutable? (ss.map .str) = none := by
    simp [Value.firstMutable?_eq_none_iff, Value.mutablePart?]
  rw [checkNames, hnone]

/-- A rule between names, as a builder holds it. -/
def ruleEntry (r : Rule String) : Value × List Value :=
  (.str r.left, r.right.map .str)

theorem checkLengths_cons (r : Rule String) (rules : List (Value × List Value)) :
    checkLengths (ruleEntry r :: rules) =
      (if (r.right.map Value.str).length = 1 ∨ (r.right.map Value.str).length = 2 then .ok ()
        else do .error (.flawed (.badLength (.str r.left) (← joinable 0 (r.right.map .str)))))
        >>= fun _ => checkLengths rules := rfl

/-- The first rule of a wrong length is what the check of the lengths finds. -/
theorem checkLengths_map_ruleEntry (rules : List (Rule String)) :
    checkLengths (rules.map ruleEntry) =
      match rules.findSome? Rule.lengthFlaw? with
      | some flaw => .error (.flawed flaw)
      | none => .ok () := by
  induction rules with
  | nil => rfl
  | cons r rules ih =>
    rw [List.map_cons, checkLengths_cons, List.findSome?_cons, ih, Rule.lengthFlaw?,
      List.length_map]
    split
    · rfl
    · rw [joinable_map_str]
      rfl

/-- The unit rules are those of length one. -/
theorem rulesOfLength_one (rules : List (Rule String)) :
    rulesOfLength 1 (rules.map ruleEntry) =
      (rules.filterMap Rule.unit?).map fun r => .tuple [.str r.1, .str r.2] := by
  induction rules with
  | nil => rfl
  | cons r rules ih =>
    obtain ⟨left, right⟩ := r
    unfold rulesOfLength at ih ⊢
    rcases right with _ | ⟨x, _ | ⟨y, right⟩⟩ <;>
      simp [ruleEntry, Rule.unit?, List.filterMap_cons, ih]

/-- The binary rules are those of length two. -/
theorem rulesOfLength_two (rules : List (Rule String)) :
    rulesOfLength 2 (rules.map ruleEntry) =
      (rules.filterMap Rule.binary?).map fun r => .tuple [.str r.1, .str r.2.1, .str r.2.2] := by
  induction rules with
  | nil => rfl
  | cons r rules ih =>
    obtain ⟨left, right⟩ := r
    unfold rulesOfLength at ih ⊢
    rcases right with _ | ⟨x, _ | ⟨y, _ | ⟨z, right⟩⟩⟩ <;>
      simp [ruleEntry, Rule.binary?, List.filterMap_cons, ih]

end Builder

namespace GrammarText

open Builder

/-- The call that declares a symbol of a right side as what it is. -/
def RightSymbol.builderCall : RightSymbol → BuilderCall
  | .terminal value => .terminals [.str value]
  | .nonterminal name => .nonterminals [.str name]

/-- The calls for an alternative: its symbols are declared, then its rule is added. -/
def alternativeCalls (left : String) (symbols : List RightSymbol) : List BuilderCall :=
  symbols.map RightSymbol.builderCall ++
    [.rule (.str left) [.tuple (symbols.map fun x => .str x.text)]]

/-- The calls for an item. -/
def Item.builderCalls : Item → List BuilderCall
  | .start name => [.start (.str name), .nonterminals [.str name]]
  | .terminals values => [.terminals (values.map .str)]
  | .nonterminals names => [.nonterminals (names.map .str)]
  | .production left alternatives =>
    .nonterminals [.str left] :: alternatives.flatMap (alternativeCalls left)

/-- The calls for a list of items. If none of them names a start symbol, the left side of the first
production becomes the start symbol in the end. -/
def builderCalls (items : List Item) : List BuilderCall :=
  items.flatMap Item.builderCalls ++
    match items.findSome? Item.start?, items.findSome? Item.left? with
    | none, some left => [.start (.str left)]
    | _, _ => []

/-- A builder with names and rules added, and with another start symbol if one is given. -/
def extended (b : Builder) (start : Option String) (terminals nonterminals : List String)
    (rules : List (Rule String)) : Builder where
  start := (start.map .str).getD b.start
  terminals := b.terminals ++ terminals.map .str
  nonterminals := b.nonterminals ++ nonterminals.map .str
  rules := b.rules ++ rules.map ruleEntry

variable {b : Builder}

theorem extended_extended (start start' : Option String) (ts ts' ns ns' : List String)
    (rules rules' : List (Rule String)) :
    extended (extended b start ts ns rules) start' ts' ns' rules' =
      extended b (start'.or start) (ts ++ ts') (ns ++ ns') (rules ++ rules') := by
  cases start' <;> simp [extended]

/-- Calls that each add something add all of it one after the other. Of several start symbols the
last one stays. -/
theorem applyAll_flatMap {α : Type} {calls : α → List BuilderCall} {start : α → Option String}
    {ts ns : α → List String} {rules : α → List (Rule String)}
    (h : ∀ x b, Builder.applyAll b (calls x) = .ok (extended b (start x) (ts x) (ns x) (rules x)))
    (xs : List α) (b : Builder) : b.applyAll (xs.flatMap calls) =
      .ok (extended b (xs.filterMap start).getLast? (xs.flatMap ts) (xs.flatMap ns)
        (xs.flatMap rules)) := by
  induction xs generalizing b with
  | nil => simp [applyAll, extended]
  | cons x xs ih =>
    have hlast : ((x :: xs).filterMap start).getLast? =
        (xs.filterMap start).getLast?.or (start x) := by
      rw [List.filterMap_cons]
      cases start x <;> simp [List.getLast?_cons]
    rw [List.flatMap_cons, applyAll_append, h, hlast]
    refine (ih _).trans ?_
    rw [extended_extended]
    simp only [List.flatMap_cons]

/-- Declaring the symbols of a right side adds their names. -/
theorem applyAll_symbols (symbols : List RightSymbol) (b : Builder) :
    b.applyAll (symbols.map RightSymbol.builderCall) =
      .ok (extended b none (symbols.filterMap RightSymbol.terminal?)
        (symbols.filterMap RightSymbol.nonterminal?) []) := by
  have hsymbol : ∀ (x : RightSymbol) (b : Builder), b.applyAll [x.builderCall] =
      .ok (extended b none x.terminal?.toList x.nonterminal?.toList []) := by
    intro x b
    cases x <;> simp [RightSymbol.builderCall, applyAll, apply, extended, withTerminals,
      withNonterminals, RightSymbol.terminal?, RightSymbol.nonterminal?]
  have hrules : symbols.flatMap (fun _ => ([] : List (Rule String))) = [] :=
    List.flatMap_eq_nil_iff.2 fun _ _ => rfl
  have hall := applyAll_flatMap hsymbol symbols b
  rw [← List.map_eq_flatMap, ← List.filterMap_eq_flatMap_toList,
    ← List.filterMap_eq_flatMap_toList, hrules] at hall
  simpa using hall

/-- An alternative adds the names of its symbols and its rule. -/
theorem applyAll_alternativeCalls (left : String) (symbols : List RightSymbol) (b : Builder) :
    b.applyAll (alternativeCalls left symbols) =
      .ok (extended b none (symbols.filterMap RightSymbol.terminal?)
        (symbols.filterMap RightSymbol.nonterminal?) [Item.ruleOf left symbols]) := by
  rw [alternativeCalls, applyAll_append, applyAll_symbols]
  simp [Except.bind, applyAll, apply, addRules, alternative, Value.elements, Value.elements?,
    extended, ruleEntry, Item.ruleOf]

/-- The calls for an item add what the item declares. -/
theorem applyAll_itemCalls (item : Item) (b : Builder) : b.applyAll item.builderCalls =
    .ok (extended b item.start? item.terminalNames item.nonterminalNames item.rules) := by
  cases item with
  | start name =>
    simp [Item.builderCalls, applyAll, apply, withStart, withNonterminals, extended, Item.start?,
      Item.terminalNames, Item.nonterminalNames, Item.rules]
  | terminals values =>
    simp [Item.builderCalls, applyAll, apply, withTerminals, extended, Item.start?,
      Item.terminalNames, Item.nonterminalNames, Item.rules]
  | nonterminals names =>
    simp [Item.builderCalls, applyAll, apply, withNonterminals, extended, Item.start?,
      Item.terminalNames, Item.nonterminalNames, Item.rules]
  | production left alternatives =>
    have hall := applyAll_flatMap (applyAll_alternativeCalls left) alternatives
      (extended b none [] [left] [])
    have hleft : b.withNonterminals [.str left] = extended b none [] [left] [] := by
      simp [withNonterminals, extended]
    rw [extended_extended, ← List.map_eq_flatMap] at hall
    rw [Item.builderCalls, applyAll, apply, hleft]
    simpa [Item.start?, Item.terminalNames, Item.nonterminalNames, Item.rules] using hall

/-- The start symbol of items: the one that is named, or else the left side of the first
production. -/
def startOf? (items : List Item) : Option String :=
  (items.findSome? Item.start?).or (items.findSome? Item.left?)

/-- The calls for items with at most one start symbol add what all of them declare. -/
theorem applyAll_builderCalls {items : List Item}
    (hstart : (items.filterMap Item.start?).length ≤ 1) :
    empty.applyAll (builderCalls items) =
      .ok (extended empty (startOf? items) (items.flatMap Item.terminalNames)
        (items.flatMap Item.nonterminalNames) (items.flatMap Item.rules)) := by
  have hlast : (items.filterMap Item.start?).getLast? = items.findSome? Item.start? := by
    rw [← List.head?_filterMap]
    match items.filterMap Item.start?, hstart with
    | [], _ => rfl
    | [_], _ => rfl
  rw [builderCalls, applyAll_append, applyAll_flatMap applyAll_itemCalls, hlast, startOf?]
  cases items.findSome? Item.start? with
  | some start => rfl
  | none =>
    cases items.findSome? Item.left? with
    | some left => rfl
    | none => rfl

/-- An alternative that cannot be collected is of a wrong length. -/
theorem lengthFlaw?_of_addAlternative_error {left : String} {c : Collection}
    {symbols : List RightSymbol} {flaw : Flaw} (h : c.addAlternative left symbols = .error flaw) :
    (Item.ruleOf left symbols).lengthFlaw? = some flaw := by
  rcases symbols with _ | ⟨x, _ | ⟨y, _ | ⟨z, symbols⟩⟩⟩ <;>
    simp_all [Collection.addAlternative, Item.ruleOf, Rule.lengthFlaw?]

/-- The first flaw in the length of a rule of an item. -/
def Item.lengthFlaw? (item : Item) : Option Flaw :=
  item.rules.findSome? Rule.lengthFlaw?

/-- An item that cannot be collected has a rule of a wrong length, unless it names a second start
symbol. -/
theorem lengthFlaw?_of_addItem_error {item : Item} {c : Collection} {flaw : Flaw}
    (hstart : c.start = none ∨ item.start? = none) (h : c.addItem item = .error flaw) :
    item.lengthFlaw? = some flaw := by
  cases item with
  | start name =>
    obtain hstart | hstart := hstart
    · rw [Collection.addItem, hstart] at h
      cases h
    · cases hstart
  | terminals values => cases h
  | nonterminals names => cases h
  | production left alternatives =>
    rw [Item.lengthFlaw?, Item.rules, List.findSome?_map]
    refine findSome?_eq_of_foldlM_error (fun _ _ => True) ?_ ?_ trivial h
    · intro symbols _ c c' _ hfirst
      have hshort := (Collection.exists_addAlternative_iff left c symbols).1 ⟨c', hfirst⟩
      exact ⟨trivial, Rule.lengthFlaw?_eq_none_iff.2 hshort⟩
    · intro symbols _ c flaw _ hfirst
      exact lengthFlaw?_of_addAlternative_error hfirst

theorem lengthFlaw?_eq_none_iff {item : Item} :
    item.lengthFlaw? = none ↔ ∀ r ∈ item.rules, IsShort r := by
  simp only [Item.lengthFlaw?, List.findSome?_eq_none_iff, Rule.lengthFlaw?_eq_none_iff]

/-- The first flaw among the rules of items is the first flaw of an item. -/
theorem findSome?_flatMap_rules (items : List Item) :
    (items.flatMap Item.rules).findSome? Rule.lengthFlaw? = items.findSome? Item.lengthFlaw? := by
  induction items with
  | nil => rfl
  | cons item items ih =>
    rw [List.flatMap_cons, List.findSome?_append, List.findSome?_cons, ih, Item.lengthFlaw?]
    cases item.rules.findSome? Rule.lengthFlaw? <;> rfl

/-- Items with at most one start symbol that cannot be collected fail at the first rule of a wrong
length. -/
theorem findSome?_lengthFlaw?_of_ofItems_error {items : List Item} {flaw : Flaw}
    (hstart : (items.filterMap Item.start?).length ≤ 1)
    (h : Collection.ofItems items = .error flaw) :
    (items.flatMap Item.rules).findSome? Rule.lengthFlaw? = some flaw := by
  -- what is left names no start symbol once one is collected
  let P : List Item → Collection → Prop := fun items c =>
    (c.start.toList ++ items.filterMap Item.start?).length ≤ 1
  have hempty : P items .empty := by simpa [P, Collection.empty] using hstart
  have hitems : items.findSome? Item.lengthFlaw? = some flaw := by
    refine findSome?_eq_of_foldlM_error P ?_ ?_ hempty h
    · intro item items c c' hP hfirst
      have hrest := ((Collection.startCount_cons_iff c.start item items).1 hP).2
      have hshort := ((Collection.exists_addItem_iff c item).1 ⟨c', hfirst⟩).2
      rw [← (Collection.gains_of_addItem hfirst).start] at hrest
      exact ⟨hrest, lengthFlaw?_eq_none_iff.2 hshort⟩
    · intro item items c flaw hP hfirst
      have hone := ((Collection.startCount_cons_iff c.start item items).1 hP).1
      exact lengthFlaw?_of_addItem_error hone hfirst
  rw [findSome?_flatMap_rules, hitems]

/-- A builder that was fed with items describes what the items describe, or fails with the same
flaw. -/
theorem describe_fed {items : List Item} {start : String}
    (hcount : (items.filterMap Item.start?).length ≤ 1) (hstart : startOf? items = some start) :
    (extended empty (some start) (items.flatMap Item.terminalNames)
        (items.flatMap Item.nonterminalNames) (items.flatMap Item.rules)).describe =
      (describeItems items).mapError .flawed := by
  simp only [describe, extended, empty, List.nil_append, checkLengths_map_ruleEntry,
    checkNames_map_str, Value.dropRepeats_map_str, rulesOfLength_one, rulesOfLength_two]
  cases hitems : Collection.ofItems items with
  | error flaw =>
    rw [findSome?_lengthFlaw?_of_ofItems_error hcount hitems, describeItems, hitems]
    rfl
  | ok c =>
    obtain ⟨-, hshort⟩ := (Collection.exists_foldlM_addItem_iff items .empty).1 ⟨c, hitems⟩
    have hnone : (items.flatMap Item.rules).findSome? Rule.lengthFlaw? = none :=
      List.findSome?_eq_none_iff.2 fun r hr => Rule.lengthFlaw?_eq_none_iff.2 (hshort r hr)
    obtain ⟨hterminals, hnonterminals, hfirst, hleft⟩ := Collection.gains_of_ofItems hitems
    have hrules := Collection.gainsRules_of_ofItems hitems
    have hs : c.start.or c.firstLeft = some start := by rw [hfirst, hleft, ← hstart, startOf?]
    rw [hnone, describeItems, hitems, Except.bind, Collection.describe, hs, hterminals,
      hnonterminals, hrules.binary, hrules.unit]
    rfl

/-- Whatever is wrong with items is a flaw. -/
theorem failsByFlaw_describeItems (items : List Item) :
    FailsByFlaw (((describeItems items).mapError .flawed).bind Description.check) := by
  cases hd : describeItems items with
  | error flaw => exact .flawed flaw
  | ok d =>
    obtain ⟨c, -, hd⟩ := bind_eq_ok_iff.1 hd
    refine Description.HasSequences.failsByFlaw_check fun rule hr => ?_
    unfold Collection.describe at hd
    split at hd
    · cases hd
      simp only [List.mem_append, List.mem_map] at hr
      obtain ⟨r, -, rfl⟩ | ⟨r, -, rfl⟩ := hr
      · exact ⟨_, rfl⟩
      · exact ⟨_, rfl⟩
    · cases hd

/-- Of items a grammar comes out, or a flaw, and then the table stays as it was. -/
theorem buildItems_cases (items : List Item) (names : NameTable) :
    (∃ g after, buildItems items names = (.ok g, after)) ∨
      ∃ flaw, buildItems items names = (.error (.flawed flaw), names) := by
  unfold buildItems Building.ofDescribed Building.ofChecked
  cases hc : ((describeItems items).mapError .flawed).bind Description.check with
  | ok c => exact .inl ⟨_, _, rfl⟩
  | error e =>
    obtain ⟨flaw, rfl⟩ := failsByFlaw_describeItems items e hc
    exact .inr ⟨flaw, rfl⟩

/-- Items with a start symbol or a production have a start symbol. -/
theorem exists_startOf?_eq {items : List Item}
    (h : ∃ item ∈ items, item.start?.isSome ∨ item.left?.isSome) :
    ∃ start, startOf? items = some start := by
  rw [← Option.isSome_iff_exists, startOf?, Option.isSome_or, Bool.or_eq_true,
    List.isSome_findSome?, List.isSome_findSome?]
  obtain ⟨item, hitem, hstart | hleft⟩ := h
  · exact .inl (List.any_eq_true.2 ⟨item, hitem, hstart⟩)
  · exact .inr (List.any_eq_true.2 ⟨item, hitem, hleft⟩)

/-- A builder that is fed with items, at most one of which names a start symbol and one of which
names one or is a production, is the same front end as the reader of their text. No call fails, and
over every table the same comes out: one grammar, with its handles, orders, rule maps and indexes,
and one table afterwards, or else the same flaw. -/
theorem builder_builds_what_items_build (items : List Item)
    (hcount : (items.filterMap Item.start?).length ≤ 1)
    (hsome : ∃ item ∈ items, item.start?.isSome ∨ item.left?.isSome) :
    ∃ b, empty.applyAll (builderCalls items) = .ok b ∧
      (∀ names, b.build names = buildItems items names) ∧
      (∀ names, (∃ g after, b.build names = (.ok g, after)) ∨
        ∃ flaw, b.build names = (.error (.flawed flaw), names)) ∧
      ∀ source, GrammarText.items source = .ok items →
        ∀ names, b.build names = GrammarText.build source names := by
  obtain ⟨start, hstart⟩ := exists_startOf?_eq hsome
  have hbuild : ∀ names, (extended empty (some start) (items.flatMap Item.terminalNames)
      (items.flatMap Item.nonterminalNames) (items.flatMap Item.rules)).build names =
        buildItems items names := by
    intro names
    rw [Builder.build, describe_fed hcount hstart, buildItems]
  refine ⟨_, hstart ▸ applyAll_builderCalls hcount, hbuild, fun names => ?_, ?_⟩
  · rw [hbuild]
    exact buildItems_cases items names
  · intro source hitems names
    rw [hbuild, GrammarText.build, hitems]
    rfl

/-- Items that name no start symbol, use names before they are declared and declare them again. -/
def unstartedItems : List Item :=
  [.production "S" [[.nonterminal "S", .nonterminal "A"], [.terminal "a"], [.terminal "a"]],
    .nonterminals ["B", "S"], .production "A" [[.terminal "b"]]]

/-- The same items before a rule without symbols and a terminal that is a nonterminal as well: of
the two flaws, the length of the rule is the one that is found. -/
def flawedItems : List Item :=
  .terminals ["A"] :: unstartedItems ++ [.production "B" [[]]]

/-- Both lists of items give through a builder what they give when they are read. -/
theorem unstartedItems_and_flawedItems_built : (∃ b,
      empty.applyAll (builderCalls unstartedItems) = .ok b ∧
      buildItems unstartedItems .empty = b.build .empty ∧
      b.build .empty = (.ok (.ofDeclarations
        ⟨0, [1, 2], [0, 3, 4], [(0, 0, 3)], [(0, 1), (0, 1), (3, 2)]⟩),
        ⟨["S", "a", "b", "A", "B"]⟩)) ∧
    ∃ b, empty.applyAll (builderCalls flawedItems) = .ok b ∧
      buildItems flawedItems .empty = b.build .empty ∧
      b.build .empty = (.error (.flawed (.badLength (.str "B") [])), .empty) := by
  obtain ⟨b, hb, hbuild, -, -⟩ := builder_builds_what_items_build unstartedItems (by decide)
    ⟨_, List.mem_cons_self, .inr rfl⟩
  obtain ⟨b', hb', hbuild', -, -⟩ := builder_builds_what_items_build flawedItems (by decide)
    ⟨_, List.mem_cons_of_mem _ List.mem_cons_self, .inr rfl⟩
  refine ⟨⟨b, hb, (hbuild _).symm, ?_⟩, b', hb', (hbuild' _).symm, ?_⟩
  · rw [hbuild]
    rfl
  · rw [hbuild']
    rfl

end GrammarText

end ChartParsing
