import ChartParsing.Proofs.Grammar.Checking
import ChartParsing.Proofs.GrammarText.Relisting

/-!
# What items declare, whatever their order

Items are collected one after the other, and the first flaw that is met ends the collection. With
one start symbol among them the order decides nothing: whether they can be collected depends on
each item alone, and what they declare is put together from what each of them declares
(`check_describeItems_eq_ok_iff`). A production collects exactly what the productions of its
alternatives collect (`describeItems_ungrouped`), up to the flaw that ends it.
-/

namespace ChartParsing

/-- Declarations of the same start symbol and the same sets of names and rules. -/
structure Declarations.SameSets (d e : Declarations String) : Prop where
  start : d.start = e.start
  terminals : ∀ s, s ∈ d.terminals ↔ s ∈ e.terminals
  nonterminals : ∀ s, s ∈ d.nonterminals ↔ s ∈ e.nonterminals
  binary : ∀ r, r ∈ d.binary ↔ r ∈ e.binary
  unit : ∀ r, r ∈ d.unit ↔ r ∈ e.unit

/-- Consistency is a matter of the sets. -/
theorem Declarations.SameSets.isConsistent {d e : Declarations String} (h : d.SameSets e)
    (hd : d.IsConsistent) : e.IsConsistent where
  disjoint s ht hn := hd.disjoint ((h.terminals s).2 ht) ((h.nonterminals s).2 hn)
  start_mem := by
    rw [← h.nonterminals, ← h.start]
    exact hd.start_mem
  binary_mem r hr := by
    simp only [← h.nonterminals]
    exact hd.binary_mem r ((h.binary r).2 hr)
  unit_mem r hr := by
    rw [← h.nonterminals, ← h.terminals]
    exact hd.unit_mem r ((h.unit r).2 hr)
  ne_empty s hs := hd.ne_empty s ((h.nonterminals s).2 hs)
  length_eq s hs := hd.length_eq s ((h.terminals s).2 hs)

namespace GrammarText

namespace Item

/-- The rule of an alternative of a left side. -/
def ruleOf (left : String) (symbols : List RightSymbol) : Rule String :=
  ⟨left, symbols.map RightSymbol.text⟩

/-- The rules that an item gives. -/
def rules : Item → List (Rule String)
  | production left alternatives => alternatives.map (ruleOf left)
  | _ => []

end Item

/-- A rule with one or two symbols on its right side. -/
def IsShort {σ : Type} (r : Rule σ) : Prop :=
  r.isUnit = true ∨ r.isBinary = true

namespace Collection

/-- A collection becomes another one by getting rules. -/
structure GainsRules (rules : List (Rule String)) (c c' : Collection) : Prop where
  binary : c'.binary = c.binary ++ rules.filterMap Rule.binary?
  unit : c'.unit = c.unit ++ rules.filterMap Rule.unit?

variable {c c' c'' : Collection} {rules rules' : List (Rule String)}

theorem GainsRules.of_eq (hbinary : c'.binary = c.binary) (hunit : c'.unit = c.unit) :
    GainsRules [] c c' :=
  ⟨by simpa using hbinary, by simpa using hunit⟩

theorem GainsRules.trans (h : GainsRules rules c c') (h' : GainsRules rules' c' c'') :
    GainsRules (rules ++ rules') c c'' where
  binary := by rw [h'.binary, h.binary, List.filterMap_append, List.append_assoc]
  unit := by rw [h'.unit, h.unit, List.filterMap_append, List.append_assoc]

/-- Steps that can fail gain together the rules that each of them gains. -/
theorem GainsRules.of_foldlM {α : Type} {step : Collection → α → Except Flaw Collection}
    {added : α → List (Rule String)}
    (hstep : ∀ x c c', step c x = .ok c' → GainsRules (added x) c c') {xs : List α}
    (h : xs.foldlM step c = .ok c') : GainsRules (xs.flatMap added) c c' :=
  rel_of_foldlM (R := fun xs c c' => GainsRules (xs.flatMap added) c c')
    (fun _ => .of_eq rfl rfl)
    (fun x _ c c₁ _ hfirst hrest => (hstep x c c₁ hfirst).trans hrest) h

theorem rules_foldl_addSymbol (symbols : List RightSymbol) (c : Collection) :
    (symbols.foldl addSymbol c).binary = c.binary ∧ (symbols.foldl addSymbol c).unit = c.unit := by
  induction symbols generalizing c with
  | nil => exact ⟨rfl, rfl⟩
  | cons x symbols ih => cases x <;> exact ih _

/-- An alternative can be collected when its rule is short. -/
theorem exists_addAlternative_iff (left : String) (c : Collection) (symbols : List RightSymbol) :
    (∃ c', addAlternative left c symbols = .ok c') ↔ IsShort (Item.ruleOf left symbols) := by
  rcases symbols with _ | ⟨x, _ | ⟨y, _ | ⟨z, symbols⟩⟩⟩ <;>
    simp [addAlternative, IsShort, Item.ruleOf, Rule.isUnit, Rule.isBinary]

/-- An alternative adds its rule. -/
theorem gainsRules_of_addAlternative {left : String} {symbols : List RightSymbol}
    (h : addAlternative left c symbols = .ok c') :
    GainsRules [Item.ruleOf left symbols] c c' := by
  obtain ⟨hbinary, hunit⟩ := rules_foldl_addSymbol symbols c
  unfold addAlternative at h
  split at h
  · rename_i a hsymbols
    cases h
    rw [Item.ruleOf, hsymbols]
    exact ⟨by simp [hbinary, Rule.binary?], by simp [hunit, Rule.unit?]⟩
  · rename_i a b hsymbols
    cases h
    rw [Item.ruleOf, hsymbols]
    exact ⟨by simp [hbinary, Rule.binary?], by simp [hunit, Rule.unit?]⟩
  · cases h

/-- An item can be collected unless it names a second start symbol or has a rule that is not
short. -/
theorem exists_addItem_iff (c : Collection) (item : Item) : (∃ c', c.addItem item = .ok c') ↔
    (c.start = none ∨ item.start? = none) ∧ ∀ r ∈ item.rules, IsShort r := by
  cases item with
  | start name =>
    cases hstart : c.start <;> simp [addItem, hstart, Item.start?, Item.rules]
  | terminals values => simp [addItem, Item.start?, Item.rules]
  | nonterminals names => simp [addItem, Item.start?, Item.rules]
  | production left alternatives =>
    rw [addItem, exists_foldlM_eq_ok_iff (exists_addAlternative_iff left)]
    simp [Item.start?, Item.rules]

/-- Collecting an item adds its rules. -/
theorem gainsRules_of_addItem {item : Item} (h : c.addItem item = .ok c') :
    GainsRules item.rules c c' := by
  cases item with
  | start name =>
    cases hstart : c.start with
    | some first =>
      rw [addItem, hstart] at h
      cases h
    | none =>
      rw [addItem, hstart] at h
      cases h
      exact .of_eq rfl rfl
  | terminals values =>
    cases h
    rw [foldl_addTerminal]
    exact .of_eq rfl rfl
  | nonterminals names =>
    cases h
    rw [foldl_addNonterminal]
    exact .of_eq rfl rfl
  | production left alternatives =>
    have hstep : ∀ symbols (c c' : Collection), addAlternative left c symbols = .ok c' →
        GainsRules [Item.ruleOf left symbols] c c' := fun _ _ _ => gainsRules_of_addAlternative
    have hgains := GainsRules.of_foldlM hstep h
    rw [← List.map_eq_flatMap] at hgains
    exact ⟨hgains.binary, hgains.unit⟩

/-- The rules that are collected from items are theirs, in the same order. -/
theorem gainsRules_of_ofItems {items : List Item} (h : ofItems items = .ok c) :
    GainsRules (items.flatMap Item.rules) empty c := by
  have hstep : ∀ item (c c' : Collection), c.addItem item = .ok c' →
      GainsRules item.rules c c' := fun _ _ _ => gainsRules_of_addItem
  exact .of_foldlM hstep h

/-- One more item: at most one start symbol is named if it is not the item that names a second
one, and no other item does. -/
theorem startCount_cons_iff (first : Option String) (item : Item) (items : List Item) :
    (first.toList ++ (item :: items).filterMap Item.start?).length ≤ 1 ↔
      (first = none ∨ item.start? = none) ∧
        ((first.or item.start?).toList ++ items.filterMap Item.start?).length ≤ 1 := by
  cases first <;> cases h : item.start? <;> simp [h]

/-- Items can be collected unless a second start symbol comes up or a rule is not short. -/
theorem exists_foldlM_addItem_iff (items : List Item) (c : Collection) :
    (∃ c', items.foldlM addItem c = .ok c') ↔
      (c.start.toList ++ items.filterMap Item.start?).length ≤ 1 ∧
        ∀ r ∈ items.flatMap Item.rules, IsShort r := by
  induction items generalizing c with
  | nil =>
    refine iff_of_true ⟨c, rfl⟩ ⟨?_, List.forall_mem_nil _⟩
    cases c.start <;> simp
  | cons item items ih =>
    rw [startCount_cons_iff, List.flatMap_cons, List.forall_mem_append]
    constructor
    · rintro ⟨c', h⟩
      obtain ⟨c₁, hfirst, hrest⟩ := foldlM_cons_eq_ok_iff.1 h
      obtain ⟨hstart, hshort⟩ := (exists_addItem_iff c item).1 ⟨c₁, hfirst⟩
      obtain ⟨hcount, hshorts⟩ := (ih c₁).1 ⟨c', hrest⟩
      rw [(gains_of_addItem hfirst).start] at hcount
      exact ⟨⟨hstart, hcount⟩, hshort, hshorts⟩
    · rintro ⟨⟨hstart, hcount⟩, hshort, hshorts⟩
      obtain ⟨c₁, hfirst⟩ := (exists_addItem_iff c item).2 ⟨hstart, hshort⟩
      rw [← (gains_of_addItem hfirst).start] at hcount
      obtain ⟨c', hrest⟩ := (ih c₁).2 ⟨hcount, hshorts⟩
      exact ⟨c', foldlM_cons_eq_ok_iff.2 ⟨c₁, hfirst, hrest⟩⟩

end Collection

/-- What items with one start symbol declare. -/
def declared (start : String) (items : List Item) : Declarations String where
  start := start
  terminals := FirstSeen.ofList (items.flatMap Item.terminalNames)
  nonterminals := FirstSeen.ofList (items.flatMap Item.nonterminalNames)
  binary := (items.flatMap Item.rules).filterMap Rule.binary?
  unit := (items.flatMap Item.rules).filterMap Rule.unit?

/-- Items in another order declare the same sets. -/
theorem sameSets_declared {items items' : List Item} (h : items.Perm items') (start : String) :
    (declared start items).SameSets (declared start items') where
  start := rfl
  terminals s := by
    simp only [declared, FirstSeen.mem_ofList, (h.flatMap_right _).mem_iff]
  nonterminals s := by
    simp only [declared, FirstSeen.mem_ofList, (h.flatMap_right _).mem_iff]
  binary r := ((h.flatMap_right _).filterMap _).mem_iff
  unit r := ((h.flatMap_right _).filterMap _).mem_iff

/-- A collection of items with one start symbol is described by what they declare. -/
theorem exists_describe_of_ofItems {start : String} {items : List Item} {c : Collection}
    (hstart : items.filterMap Item.start? = [start]) (h : Collection.ofItems items = .ok c) :
    ∃ d, c.describe = .ok d ∧ d.Says (declared start items) := by
  obtain ⟨hterminals, hnonterminals, hfirst, -⟩ := Collection.gains_of_ofItems h
  have hrules := Collection.gainsRules_of_ofItems h
  rw [← List.head?_filterMap, hstart] at hfirst
  rw [Collection.describe, hfirst]
  refine ⟨_, rfl, rfl, congrArg _ hterminals, congrArg _ hnonterminals, ?_, ?_⟩
  · rw [List.forall₂_map_left_iff, hrules.binary]
    exact List.forall₂_same.2 fun _ _ => rfl
  · rw [List.forall₂_map_left_iff, hrules.unit]
    exact List.forall₂_same.2 fun _ _ => rfl

/-- Items with one start symbol pass all checks when their rules are short and what they declare
is consistent, and then they come to what they declare. -/
theorem check_describeItems_eq_ok_iff {start : String} {items : List Item}
    (hstart : items.filterMap Item.start? = [start]) {c : Declarations String} :
    ((describeItems items).mapError .flawed).bind Description.check = .ok c ↔
      (∀ r ∈ items.flatMap Item.rules, IsShort r) ∧ c = declared start items ∧
        c.IsConsistent := by
  have hcollects := Collection.exists_foldlM_addItem_iff items .empty
  have hcount : ((Collection.empty.start.toList ++ items.filterMap Item.start?).length ≤ 1) := by
    rw [hstart]
    exact Nat.le_refl 1
  rw [and_iff_right hcount] at hcollects
  constructor
  · intro h
    obtain ⟨d, hd, hc⟩ := bind_eq_ok_iff.1 h
    obtain ⟨collected, hitems, hdescribe⟩ := bind_eq_ok_iff.1 (mapError_eq_ok_iff.1 hd)
    obtain ⟨d', hd', hmeans⟩ := exists_describe_of_ofItems hstart hitems
    obtain rfl := Except.ok.inj (hdescribe.symm.trans hd')
    obtain ⟨hmeans', hconsistent⟩ := Description.check_eq_ok_iff.1 hc
    exact ⟨hcollects.1 ⟨collected, hitems⟩, hmeans'.eq hmeans, hconsistent⟩
  · rintro ⟨hshort, rfl, hconsistent⟩
    obtain ⟨collected, hitems⟩ := hcollects.2 hshort
    obtain ⟨d, hd, hmeans⟩ := exists_describe_of_ofItems hstart hitems
    have hdescribe : describeItems items = .ok d := bind_eq_ok_iff.2 ⟨collected, hitems, hd⟩
    rw [hdescribe]
    exact Description.check_eq_ok_iff.2 ⟨hmeans, hconsistent⟩

/-- In another order, items with one start symbol pass all checks as well, and come to the same
sets. -/
theorem exists_check_of_perm {items items' : List Item} (h : items.Perm items')
    (hstart : (items.filterMap Item.start?).length = 1) {c : Declarations String}
    (hc : ((describeItems items).mapError .flawed).bind Description.check = .ok c) :
    ∃ c', ((describeItems items').mapError .flawed).bind Description.check = .ok c' ∧
      c.SameSets c' := by
  obtain ⟨start, hstart⟩ := List.length_eq_one_iff.1 hstart
  have hstart' : items'.filterMap Item.start? = [start] :=
    List.perm_singleton.1 ((hstart ▸ h.filterMap Item.start?).symm)
  obtain ⟨hshort, rfl, hconsistent⟩ := (check_describeItems_eq_ok_iff hstart).1 hc
  have hsame := sameSets_declared h start
  refine ⟨_, (check_describeItems_eq_ok_iff hstart').2 ⟨fun r hr => ?_, rfl, ?_⟩, hsame⟩
  · exact hshort r ((h.flatMap_right Item.rules).mem_iff.2 hr)
  · exact hsame.isConsistent hconsistent

section Ungrouping

variable {c c' : Collection} {left : String}

/-- A left side has been met before. -/
structure HasMet (left : String) (c : Collection) : Prop where
  declared : left ∈ c.nonterminals
  after_first : c.firstLeft.isSome

/-- One more production of a left side adds its alternative and nothing else. -/
theorem HasMet.addItem_eq (h : HasMet left c) (symbols : List RightSymbol) :
    c.addItem (.production left [symbols]) = c.addAlternative left symbols := by
  obtain ⟨first, hfirst⟩ := Option.isSome_iff_exists.1 h.after_first
  rw [Collection.addItem, Collection.addNonterminal_of_mem h.declared, hfirst, Option.some_or,
    ← hfirst, List.foldlM_cons]
  cases c.addAlternative left symbols <;> rfl

theorem HasMet.of_addAlternative (h : HasMet left c) {symbols : List RightSymbol}
    (hc : c.addAlternative left symbols = .ok c') : HasMet left c' := by
  have hgains := Collection.gains_of_addAlternative hc
  refine ⟨?_, ?_⟩
  · rw [hgains.nonterminals, FirstSeen.mem_addAll]
    exact .inl h.declared
  · rw [hgains.firstLeft, Option.or_none]
    exact h.after_first

/-- Once a left side has been met, its productions add its alternatives one after the other, up
to the first that has a flaw. -/
theorem HasMet.foldlM_productions (h : HasMet left c) (alternatives : List (List RightSymbol)) :
    (alternatives.map fun symbols => Item.production left [symbols]).foldlM Collection.addItem c =
      alternatives.foldlM (Collection.addAlternative left) c := by
  induction alternatives generalizing c with
  | nil => rfl
  | cons symbols alternatives ih =>
    rw [List.map_cons, List.foldlM_cons, List.foldlM_cons, h.addItem_eq]
    cases hc : c.addAlternative left symbols with
    | error e => rfl
    | ok c' => exact ih (h.of_addAlternative hc)

/-- A production collects what the productions of its alternatives collect. -/
theorem addItem_production {alternatives : List (List RightSymbol)} (hne : alternatives ≠ [])
    (c : Collection) : c.addItem (.production left alternatives) =
      (alternatives.map fun symbols => Item.production left [symbols]).foldlM
        Collection.addItem c := by
  let met : Collection :=
    { c.addNonterminal left with firstLeft := c.firstLeft.or (some left) }
  have hmet : HasMet left met := by
    refine ⟨FirstSeen.mem_add.2 (.inr rfl), ?_⟩
    show (c.firstLeft.or (some left)).isSome
    cases c.firstLeft <;> rfl
  obtain ⟨symbols, rest, rfl⟩ := List.exists_cons_of_ne_nil hne
  rw [List.map_cons, List.foldlM_cons]
  show (symbols :: rest).foldlM (Collection.addAlternative left) met =
    (([symbols].foldlM (Collection.addAlternative left) met) >>= fun c =>
      (rest.map fun symbols => Item.production left [symbols]).foldlM Collection.addItem c)
  rw [List.foldlM_cons, List.foldlM_cons]
  cases hc : met.addAlternative left symbols with
  | error e => rfl
  | ok c' => exact ((hmet.of_addAlternative hc).foldlM_productions rest).symm

/-- Alternatives that are given by productions of their own are described alike, with the same
flaw if there is one. -/
theorem describeItems_ungrouped (before : List Item) (left : String)
    {alternatives : List (List RightSymbol)} (hne : alternatives ≠ []) (after : List Item) :
    describeItems (before ++ .production left alternatives :: after) =
      describeItems (before ++ (alternatives.map fun symbols => .production left [symbols]) ++
        after) := by
  simp only [describeItems, Collection.ofItems, List.foldlM_append, List.foldlM_cons,
    addItem_production hne, bind_assoc]

end Ungrouping

end GrammarText

end ChartParsing
