import ChartParsing.Proofs.Grammar.Atomicity
import ChartParsing.Proofs.GrammarText.Composition
import ChartParsing.Proofs.GrammarText.Rereading

/-!
# Grammars of a text can be listed

The names in a grammar text are spelled as names and its terminals stand on one line, for it is
made of tokens. So a grammar that is built from a text is a grammar over names whose listing can
be read again (`exists_canBeReread_of_build`).
-/

namespace ChartParsing

open Text GrammarText

theorem GrammarText.Item.CanBeWritten.isName {item : Item} (h : item.CanBeWritten) :
    ∀ s ∈ item.nonterminalNames, IsName s.toList := by
  cases item with
  | start name => exact List.forall_mem_singleton.2 h
  | terminals values => exact List.forall_mem_nil _
  | nonterminals names => exact h
  | production left alternatives =>
    obtain ⟨hleft, -, hright⟩ := h
    refine List.forall_mem_cons.2 ⟨hleft, fun s hs => ?_⟩
    obtain ⟨symbols, hsymbols, hs⟩ := List.mem_flatMap.1 hs
    obtain ⟨x, hx, hxs⟩ := List.mem_filterMap.1 hs
    cases x with
    | terminal value => cases hxs
    | nonterminal name =>
      cases hxs
      exact (hright symbols hsymbols).2 _ hx

theorem GrammarText.Item.CanBeWritten.not_mem {item : Item} (h : item.CanBeWritten) :
    ∀ s ∈ item.terminalNames, '\n' ∉ s.toList := by
  cases item with
  | start name => exact List.forall_mem_nil _
  | terminals values => exact h
  | nonterminals names => exact List.forall_mem_nil _
  | production left alternatives =>
    intro s hs
    obtain ⟨symbols, hsymbols, hs⟩ := List.mem_flatMap.1 hs
    obtain ⟨x, hx, hxs⟩ := List.mem_filterMap.1 hs
    cases x with
    | terminal value =>
      cases hxs
      exact (h.2.2 symbols hsymbols).2 _ hx
    | nonterminal name => cases hxs

namespace Grammar

/-- A grammar that is built from a text reads a grammar over names that can be read again. -/
theorem exists_canBeReread_of_build {source : String} {g : Grammar Symbol}
    {before names : NameTable} (h : GrammarText.build source before = (.ok g, names)) :
    ∃ c : Declarations String, (ofDeclarations c).CanBeReread ∧
      (ofDeclarations c).RelatedInOrder names.IsHandle g ∧ g.IsBuiltOver names := by
  have hbuild : Building.ofDescribed (GrammarInput.text source).described before =
      (.ok g, names) := (congrFun (GrammarInput.build_eq _) before).symm.trans h
  obtain ⟨d, c, hd, hc, rfl, rfl⟩ := Building.exists_of_ofDescribed hbuild
  obtain ⟨hmeans, hconsistent⟩ := Description.check_eq_ok_iff.1 hc
  obtain ⟨ts, ns, hgives⟩ := GrammarInput.exists_gives hd hmeans
  obtain ⟨items, hitems, -, rfl, rfl⟩ := hgives.declares
  obtain ⟨-, hwritten⟩ := isTextOf_of_items hitems
  have hread := (c.settles_intern before).2 _ (.refl _)
  refine ⟨c, ⟨⟨isSound_ofDeclarations hconsistent.toIsSound, fun s hs => ?_, fun s hs => ?_⟩,
    fun s hs => hconsistent.length_eq s (FirstSeen.mem_ofList.1 hs)⟩,
    relatedInOrder_ofDeclarations (NameTable.biUnique_isHandle _) hread.related,
    d, before, _, Description.build_of_check hc, .refl _⟩
  · have hs : s ∈ FirstSeen.ofList c.nonterminals := hs
    rw [hgives.nonterminals, FirstSeen.mem_ofList] at hs
    obtain ⟨item, hitem, hs⟩ := List.mem_flatMap.1 hs
    exact (hwritten item hitem).isName s hs
  · have hs : s ∈ FirstSeen.ofList c.terminals := hs
    rw [hgives.terminals, FirstSeen.mem_ofList] at hs
    obtain ⟨item, hitem, hs⟩ := List.mem_flatMap.1 hs
    exact (hwritten item hitem).not_mem s hs

end Grammar

end ChartParsing
