import ChartParsing.GrammarText.Collection
import ChartParsing.Proofs.Steps

/-!
# What items declare

The names that an item declares can be read off the item alone: `Item.terminalNames` and
`Item.nonterminalNames` give them in order of appearance. Collecting an item adds these names
and nothing else (`gains_of_addItem`), so what a list of items declares is known once it can be
collected (`gains_of_ofItems`).
-/

namespace ChartParsing.GrammarText

/-- The terminal of a right side that a symbol is. -/
def RightSymbol.terminal? : RightSymbol → Option String
  | .terminal value => some value
  | .nonterminal _ => none

/-- The nonterminal of a right side that a symbol is. -/
def RightSymbol.nonterminal? : RightSymbol → Option String
  | .terminal _ => none
  | .nonterminal name => some name

namespace Item

/-- The start symbol that an item declares. -/
def start? : Item → Option String
  | .start name => some name
  | _ => none

/-- The left side of an item that is a production. -/
def left? : Item → Option String
  | .production left _ => some left
  | _ => none

/-- The terminals that an item declares or uses, in order of appearance. -/
def terminalNames : Item → List String
  | .terminals values => values
  | .production _ alternatives =>
    alternatives.flatMap fun symbols => symbols.filterMap RightSymbol.terminal?
  | _ => []

/-- The nonterminals that an item declares or uses, in order of appearance. -/
def nonterminalNames : Item → List String
  | .start name => [name]
  | .nonterminals names => names
  | .production left alternatives =>
    left :: alternatives.flatMap fun symbols => symbols.filterMap RightSymbol.nonterminal?
  | .terminals _ => []

end Item

namespace Collection

theorem foldl_addTerminal (values : List String) (c : Collection) :
    values.foldl addTerminal c =
      { c with terminals := FirstSeen.addAll c.terminals values } := by
  induction values generalizing c with
  | nil => rfl
  | cons v values ih => exact ih (c.addTerminal v)

theorem foldl_addNonterminal (names : List String) (c : Collection) :
    names.foldl addNonterminal c =
      { c with nonterminals := FirstSeen.addAll c.nonterminals names } := by
  induction names generalizing c with
  | nil => rfl
  | cons n names ih => exact ih (c.addNonterminal n)

/-- A collection becomes another one by getting names, and a start symbol and a first left side
unless it has them. -/
structure Gains (c c' : Collection) (terminals nonterminals : List String)
    (start left : Option String) : Prop where
  terminals : c'.terminals = FirstSeen.addAll c.terminals terminals
  nonterminals : c'.nonterminals = FirstSeen.addAll c.nonterminals nonterminals
  start : c'.start = c.start.or start
  firstLeft : c'.firstLeft = c.firstLeft.or left

variable {c c' c'' : Collection} {ts ns ts' ns' : List String} {s l s' l' : Option String}

theorem Gains.refl (c : Collection) : c.Gains c [] [] none none :=
  ⟨rfl, rfl, (Option.or_none).symm, (Option.or_none).symm⟩

theorem Gains.trans (h : c.Gains c' ts ns s l) (h' : c'.Gains c'' ts' ns' s' l') :
    c.Gains c'' (ts ++ ts') (ns ++ ns') (s.or s') (l.or l') where
  terminals := by rw [h'.terminals, h.terminals, FirstSeen.addAll_append]
  nonterminals := by rw [h'.nonterminals, h.nonterminals, FirstSeen.addAll_append]
  start := by rw [h'.start, h.start, Option.or_assoc]
  firstLeft := by rw [h'.firstLeft, h.firstLeft, Option.or_assoc]

theorem gains_foldl_addSymbol (symbols : List RightSymbol) (c : Collection) :
    c.Gains (symbols.foldl addSymbol c) (symbols.filterMap RightSymbol.terminal?)
      (symbols.filterMap RightSymbol.nonterminal?) none none := by
  induction symbols generalizing c with
  | nil => exact .refl c
  | cons x symbols ih =>
    cases x with
    | nonterminal name =>
      have hx : c.Gains (c.addNonterminal name) [] [name] none none :=
        ⟨rfl, rfl, (Option.or_none).symm, (Option.or_none).symm⟩
      exact hx.trans (ih _)
    | terminal value =>
      have hx : c.Gains (c.addTerminal value) [value] [] none none :=
        ⟨rfl, rfl, (Option.or_none).symm, (Option.or_none).symm⟩
      exact hx.trans (ih _)

/-- Steps that can fail gain together what each of them gains. -/
theorem gains_of_foldlM {α : Type} {step : Collection → α → Except Flaw Collection}
    {ts ns : α → List String} {s l : α → Option String}
    (hstep : ∀ x c c', step c x = .ok c' → c.Gains c' (ts x) (ns x) (s x) (l x)) {xs : List α}
    {c c' : Collection} (h : xs.foldlM step c = .ok c') :
    c.Gains c' (xs.flatMap ts) (xs.flatMap ns) (xs.findSome? s) (xs.findSome? l) := by
  refine rel_of_foldlM (R := fun xs c c' =>
    c.Gains c' (xs.flatMap ts) (xs.flatMap ns) (xs.findSome? s) (xs.findSome? l)) .refl ?_ h
  intro x xs c c₁ c' hfirst hrest
  have hor : ∀ f : α → Option String,
      (x :: xs).findSome? f = (f x).or (xs.findSome? f) := fun f => by
    cases hx : f x <;> simp [hx]
  rw [hor, hor]
  exact (hstep x c c₁ hfirst).trans hrest

theorem gains_of_addAlternative {left : String} {symbols : List RightSymbol}
    (h : addAlternative left c symbols = .ok c') :
    c.Gains c' (symbols.filterMap RightSymbol.terminal?)
      (symbols.filterMap RightSymbol.nonterminal?) none none := by
  have hgains := gains_foldl_addSymbol symbols c
  unfold addAlternative at h
  split at h
  · cases h
    exact ⟨hgains.terminals, hgains.nonterminals, hgains.start, hgains.firstLeft⟩
  · cases h
    exact ⟨hgains.terminals, hgains.nonterminals, hgains.start, hgains.firstLeft⟩
  · cases h

/-- Collecting an item adds the names of the item. -/
theorem gains_of_addItem {item : Item} (h : c.addItem item = .ok c') :
    c.Gains c' item.terminalNames item.nonterminalNames item.start? item.left? := by
  cases item with
  | start name =>
    cases hstart : c.start with
    | some first =>
      rw [addItem, hstart] at h
      cases h
    | none =>
      rw [addItem, hstart] at h
      cases h
      exact ⟨rfl, rfl, by rw [hstart]; rfl, (Option.or_none).symm⟩
  | terminals values =>
    cases h
    rw [foldl_addTerminal]
    exact ⟨rfl, rfl, (Option.or_none).symm, (Option.or_none).symm⟩
  | nonterminals names =>
    cases h
    rw [foldl_addNonterminal]
    exact ⟨rfl, rfl, (Option.or_none).symm, (Option.or_none).symm⟩
  | production left alternatives =>
    have hleft : c.Gains { c.addNonterminal left with firstLeft := c.firstLeft.or (some left) }
        [] [left] none (some left) := ⟨rfl, rfl, (Option.or_none).symm, rfl⟩
    have hstep : ∀ symbols (c c' : Collection), addAlternative left c symbols = .ok c' →
        c.Gains c' (symbols.filterMap RightSymbol.terminal?)
          (symbols.filterMap RightSymbol.nonterminal?) none none :=
      fun _ _ _ => gains_of_addAlternative
    have hgains := hleft.trans (gains_of_foldlM hstep h)
    have hnone : alternatives.findSome? (fun _ => (none : Option String)) = none :=
      List.findSome?_eq_none_iff.2 fun _ _ => rfl
    rw [hnone] at hgains
    exact hgains

/-- What is collected from items are their names, each where it first appears, the start symbol
that they declare, and the left side of the first production. -/
theorem gains_of_ofItems {items : List Item} (h : ofItems items = .ok c) :
    c.terminals = FirstSeen.ofList (items.flatMap Item.terminalNames) ∧
      c.nonterminals = FirstSeen.ofList (items.flatMap Item.nonterminalNames) ∧
      c.start = items.findSome? Item.start? ∧ c.firstLeft = items.findSome? Item.left? := by
  have hstep : ∀ item (c c' : Collection), c.addItem item = .ok c' →
      c.Gains c' item.terminalNames item.nonterminalNames item.start? item.left? :=
    fun _ _ _ => gains_of_addItem
  have hgains := gains_of_foldlM hstep h
  exact ⟨hgains.terminals, hgains.nonterminals, hgains.start, hgains.firstLeft⟩

end Collection

end ChartParsing.GrammarText
