import ChartParsing.Grammar.Samples
import ChartParsing.Proofs.Grammar.Building
import ChartParsing.Proofs.Grammar.Interning
import ChartParsing.Proofs.GrammarText.Collecting

/-!
# Building is atomic on the name table

A `GrammarInput` is anything that a grammar can be built from, and `GrammarInput.Declares` says
which names it declares, without any check. A grammar that is not built leaves the table as it
was; one that is built adds the names that its input declares, and no others
(`GrammarInput.build_atomic`).
-/

namespace ChartParsing

open GrammarText

/-- What a grammar can be built from. -/
inductive GrammarInput where
  | values (start terminals nonterminals binary unit : Value)
  | builder (b : Builder)
  | text (source : String)

namespace GrammarInput

/-- The grammar of an input, over a name table. -/
def build : GrammarInput → Building
  | values start terminals nonterminals binary unit => Building.ofDescribed
    ((Description.ofValues start terminals nonterminals binary unit).mapError .mistyped)
  | builder b => b.build
  | text source => GrammarText.build source

/-- An input declares a start symbol, terminals and nonterminals, in this order of appearance. -/
def Declares : GrammarInput → String → List String → List String → Prop
  | values start terminals nonterminals _ _, s, ts, ns =>
    start = .str s ∧ terminals.elements? = some (ts.map .str) ∧
      nonterminals.elements? = some (ns.map .str)
  | builder b, s, ts, ns =>
    b.start = .str s ∧ b.terminals = ts.map .str ∧ b.nonterminals = ns.map .str
  | text source, s, ts, ns => ∃ items, GrammarText.items source = .ok items ∧
    (items.findSome? Item.start?).or (items.findSome? Item.left?) = some s ∧
      ts = items.flatMap Item.terminalNames ∧ ns = items.flatMap Item.nonterminalNames

end GrammarInput

theorem Value.elements_eq_ok_iff {v : Value} {vs : List Value} :
    v.elements = .ok vs ↔ v.elements? = some vs := by
  unfold Value.elements
  cases v.elements? <;> simp

theorem map_str_inj {ss ss' : List String} (h : ss.map Value.str = ss'.map Value.str) : ss = ss' :=
  List.map_injective_iff.2 (fun _ _ => Value.str.inj) h

namespace Value

/-- Strings are kept where they are first seen. -/
theorem dropSeen_map_str {seen seen' : List String} (hseen : ∀ s, s ∈ seen ↔ s ∈ seen')
    (ss : List String) :
    seen'.map .str ++ dropSeen seen (ss.map .str) = (FirstSeen.addAll seen' ss).map .str := by
  induction ss generalizing seen seen' with
  | nil => rw [List.map_nil, dropSeen, List.append_nil, FirstSeen.addAll, List.foldl_nil]
  | cons s ss ih =>
    rw [List.map_cons, dropSeen, FirstSeen.addAll_cons]
    by_cases hs : s ∈ seen
    · rw [if_pos hs, FirstSeen.add_of_mem ((hseen s).1 hs), ih hseen]
    · have hnew : ∀ r, r ∈ s :: seen ↔ r ∈ seen' ++ [s] := fun r => by simp [hseen, or_comm]
      rw [if_neg hs, FirstSeen.add_of_not_mem fun h => hs ((hseen s).2 h), ← ih hnew]
      simp

theorem dropRepeats_map_str (ss : List String) :
    dropRepeats (ss.map .str) = (FirstSeen.ofList ss).map .str := by
  have h : ∀ s : String, s ∈ [] ↔ s ∈ [] := fun _ => Iff.rfl
  exact dropSeen_map_str h ss

/-- Nothing but strings is dropped. -/
theorem exists_of_dropSeen {seen : List String} {vs : List Value} {ss : List String}
    (h : dropSeen seen vs = ss.map .str) : ∃ ts : List String, vs = ts.map .str := by
  induction vs generalizing seen ss with
  | nil => exact ⟨[], rfl⟩
  | cons v vs ih =>
    cases v with
    | str s =>
      rw [dropSeen] at h
      split at h
      · obtain ⟨ts, rfl⟩ := ih h
        exact ⟨s :: ts, rfl⟩
      · obtain ⟨s', ss, rfl, -, hrest⟩ := List.map_eq_cons_iff.1 h.symm
        obtain ⟨ts, rfl⟩ := ih hrest.symm
        exact ⟨s :: ts, rfl⟩
    | _ =>
      obtain ⟨s', ss, rfl, he, -⟩ := List.map_eq_cons_iff.1 h.symm
      cases he

theorem exists_of_dropRepeats {vs : List Value} {ss : List String}
    (h : dropRepeats vs = ss.map .str) : ∃ ts, vs = ts.map .str ∧ ss = FirstSeen.ofList ts := by
  obtain ⟨ts, rfl⟩ := exists_of_dropSeen h
  rw [dropRepeats_map_str] at h
  exact ⟨ts, rfl, (map_str_inj h).symm⟩

end Value

namespace Building

variable {described : Except BuildError Description} {names after : NameTable}

theorem eq_of_ofDescribed_error {e : BuildError}
    (h : Building.ofDescribed described names = (.error e, after)) : after = names := by
  unfold ofDescribed ofChecked at h
  split at h
  · cases h
    rfl
  · cases h

/-- A grammar that is built is the one of interned declarations, which come out of a
description. -/
theorem exists_of_ofDescribed {g : Grammar Symbol}
    (h : Building.ofDescribed described names = (.ok g, after)) :
    ∃ d c, described = .ok d ∧ d.check = .ok c ∧
      g = Grammar.ofDeclarations (c.intern.run names).1 ∧ after = (c.intern.run names).2 := by
  unfold ofDescribed ofChecked at h
  split at h
  · cases h
  · rename_i c hc
    cases h
    obtain ⟨d, hd, hc⟩ := bind_eq_ok_iff.1 hc
    exact ⟨d, c, hd, hc, rfl, rfl⟩

end Building

namespace GrammarInput

variable {input : GrammarInput} {d : Description} {c : Declarations String}

/-- The description that an input gives, if it gives one. -/
def described : GrammarInput → Except BuildError Description
  | values start terminals nonterminals binary unit =>
    (Description.ofValues start terminals nonterminals binary unit).mapError .mistyped
  | builder b => b.describe
  | text source => do
    let items ← (GrammarText.items source).mapError .unreadable
    (describeItems items).mapError .flawed

theorem build_eq (input : GrammarInput) : input.build = Building.ofDescribed input.described := by
  cases input <;> rfl

/-- Declarations hold the names that an input declares, each at least once. -/
structure Gives (input : GrammarInput) (c : Declarations String) (ts ns : List String) : Prop where
  declares : input.Declares c.start ts ns
  terminals : FirstSeen.ofList c.terminals = FirstSeen.ofList ts
  nonterminals : FirstSeen.ofList c.nonterminals = FirstSeen.ofList ns

theorem exists_gives_of_values {start terminals nonterminals binary unit : Value}
    (hd : Description.ofValues start terminals nonterminals binary unit = .ok d) (h : d.Says c) :
    ∃ ts ns, (values start terminals nonterminals binary unit).Gives c ts ns := by
  unfold Description.ofValues at hd
  simp only [bind_eq_ok_iff, Value.elements_eq_ok_iff] at hd
  obtain ⟨vs, hvs, ws, hws, _, -, _, -, hd⟩ := hd
  cases hd
  refine ⟨c.terminals, c.nonterminals, ⟨h.start, ?_, ?_⟩, rfl, rfl⟩
  · rw [hvs, ← h.terminals]
  · rw [hws, ← h.nonterminals]

theorem exists_gives_of_builder {b : Builder} (hd : b.describe = .ok d) (h : d.Says c) :
    ∃ ts ns, (builder b).Gives c ts ns := by
  unfold Builder.describe at hd
  simp only [bind_eq_ok_iff] at hd
  obtain ⟨-, -, -, -, -, -, hd⟩ := hd
  cases hd
  obtain ⟨ts, hts, hterminals⟩ := Value.exists_of_dropRepeats h.terminals
  obtain ⟨ns, hns, hnonterminals⟩ := Value.exists_of_dropRepeats h.nonterminals
  refine ⟨ts, ns, ⟨h.start, hts, hns⟩, ?_, ?_⟩
  · rw [hterminals, FirstSeen.ofList_ofList]
  · rw [hnonterminals, FirstSeen.ofList_ofList]

theorem exists_gives_of_text {source : String} {items : List Item}
    (hitems : GrammarText.items source = .ok items) (hd : describeItems items = .ok d)
    (h : d.Says c) : ∃ ts ns, (text source).Gives c ts ns := by
  obtain ⟨collected, hc, hd⟩ := bind_eq_ok_iff.1 hd
  obtain ⟨hterminals, hnonterminals, hstart, hleft⟩ := Collection.gains_of_ofItems hc
  unfold Collection.describe at hd
  split at hd
  · rename_i start hs
    cases hd
    obtain rfl : start = c.start := Value.str.inj h.start
    have ht : collected.terminals = c.terminals := map_str_inj h.terminals
    have hn : collected.nonterminals = c.nonterminals := map_str_inj h.nonterminals
    refine ⟨_, _, ⟨items, hitems, ?_, rfl, rfl⟩, ?_, ?_⟩
    · rw [← hstart, ← hleft, hs]
    · rw [← ht, hterminals, FirstSeen.ofList_ofList]
    · rw [← hn, hnonterminals, FirstSeen.ofList_ofList]
  · cases hd

/-- Whatever comes out of an input holds the names that the input declares. -/
theorem exists_gives (hd : input.described = .ok d) (h : d.Says c) :
    ∃ ts ns, input.Gives c ts ns := by
  cases input with
  | values start terminals nonterminals binary unit =>
    exact exists_gives_of_values (mapError_eq_ok_iff.1 hd) h
  | builder b => exact exists_gives_of_builder hd h
  | text source =>
    obtain ⟨items, hitems, hd⟩ := bind_eq_ok_iff.1 hd
    exact exists_gives_of_text (mapError_eq_ok_iff.1 hitems) (mapError_eq_ok_iff.1 hd) h

/-- The names that a grammar adds to a table are those that its input declares. -/
theorem Gives.names_intern {ts ns : List String} (h : input.Gives c ts ns) (hc : c.IsSound)
    (names : NameTable) : (c.intern.run names).2.names =
      names.names ++ (FirstSeen.ofList (c.start :: (ts ++ ns))).filter (· ∉ names.names) := by
  have hdeclared : FirstSeen.ofList c.declared = FirstSeen.ofList (c.start :: (ts ++ ns)) := by
    rw [Declarations.declared, FirstSeen.ofList_cons_append, h.terminals, h.nonterminals,
      ← FirstSeen.ofList_cons_append]
  rw [hc.names_intern, hdeclared]

/-- Building leaves a table as it was if it fails. If it succeeds, the names that the input
declares are added at the end, first the start symbol, then the terminals, then the
nonterminals, each unless it is there; no rule adds a name, and every handle keeps its name. -/
theorem build_atomic (input : GrammarInput) (names : NameTable) :
    (∀ e after, input.build names = (.error e, after) → after = names) ∧
    ∀ g after, input.build names = (.ok g, after) → ∃ start terminals nonterminals,
      input.Declares start terminals nonterminals ∧
      after.names = names.names ++
        (FirstSeen.ofList (start :: (terminals ++ nonterminals))).filter (· ∉ names.names) ∧
      ∀ handle name, names.resolve handle = .ok name → after.resolve handle = .ok name := by
  rw [build_eq]
  refine ⟨fun e after => Building.eq_of_ofDescribed_error, fun g after h => ?_⟩
  obtain ⟨d, c, hd, hc, -, rfl⟩ := Building.exists_of_ofDescribed h
  obtain ⟨hmeans, hconsistent⟩ := Description.check_eq_ok_iff.1 hc
  obtain ⟨ts, ns, hgives⟩ := exists_gives hd hmeans
  refine ⟨c.start, ts, ns, hgives.declares, hgives.names_intern hconsistent.toIsSound names, ?_⟩
  exact fun handle name => NameTable.resolve_of_growsTo (c.settles_intern names).1

/-- Over a table that has one of its names, `Builder.ambiguous` adds the other one. -/
theorem ambiguous_adds_start : ∃ g after,
    (builder .ambiguous).build ⟨["x", "a"]⟩ = (.ok g, after) ∧ after.names = ["x", "a", "S"] ∧
    ∃ start terminals nonterminals,
      (builder .ambiguous).Declares start terminals nonterminals ∧
      after.names = ["x", "a"] ++
        (FirstSeen.ofList (start :: (terminals ++ nonterminals))).filter (· ∉ ["x", "a"]) := by
  have hb : (builder .ambiguous).build ⟨["x", "a"]⟩ =
      (.ok (.ofDeclarations ⟨2, [1], [2], [(2, 2, 2)], [(2, 1)]⟩), ⟨["x", "a", "S"]⟩) := rfl
  obtain ⟨start, terminals, nonterminals, hdeclares, hnames, -⟩ :=
    (build_atomic (.builder .ambiguous) ⟨["x", "a"]⟩).2 _ _ hb
  exact ⟨_, _, hb, rfl, start, terminals, nonterminals, hdeclares, hnames⟩

end GrammarInput

end ChartParsing
