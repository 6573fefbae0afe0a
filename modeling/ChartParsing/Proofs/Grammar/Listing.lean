import ChartParsing.Grammar.Listing
import ChartParsing.Proofs.Grammar.Building

/-!
# Listings say what the names say

A grammar over handles is a grammar over names, read in a table (`IsBuiltOver.exists_named`),
and its listing is made of these names alone (`Grammar.Related.listing_eq`).
-/

namespace ChartParsing

namespace Grammar

/-- The line of a rule over names. -/
def ruleLine (g : Grammar String) (r : Rule String) : String :=
  r.left ++ " -> " ++
    " ".intercalate (r.right.map fun s => if g.isTerminal s then Text.quote s else s)

/-- The lines of a listing of a grammar over names. -/
def lines (g : Grammar String) : List String :=
  ("start: " ++ g.start) ::
    ("terminals: " ++ " ".intercalate (g.terminals.map Text.quote)) ::
    ("nonterminals: " ++ " ".intercalate g.nonterminals) :: g.rules.map g.ruleLine

variable {g : Grammar Symbol} {named : Grammar String} {names : NameTable}

/-- A built grammar is a grammar over consistent names, read in the table. -/
theorem IsBuiltOver.exists_named (h : g.IsBuiltOver names) :
    ∃ c : Declarations String, c.IsConsistent ∧ (ofDeclarations c).Related names.IsHandle g := by
  obtain ⟨c, c', hc, hread, rfl⟩ := h.exists_declarations
  exact ⟨c, hc, related_ofDeclarations names.biUnique_isHandle hread.related⟩

theorem mapM_resolve {ss : List String} {xs : List Symbol}
    (h : List.Forall₂ names.IsHandle ss xs) : xs.mapM names.resolve = .ok ss :=
  mapM_eq_ok_iff.2 (h.flip.imp fun _ _ => NameTable.resolve_of_find?)

theorem Related.ruleText_eq (hg : named.Related names.IsHandle g) {r : Rule String}
    {r' : Rule Symbol} (hr : r.Related names.IsHandle r') :
    g.ruleText names r' = .ok (named.ruleLine r) := by
  have hright : r'.right.mapM (fun x => do
      let quoted ← (Except.ok (g.isTerminal x) : Except LookupError Bool)
      let s ← names.resolve x
      return if quoted then Text.quote s else s) =
      .ok (r.right.map fun s => if named.isTerminal s then Text.quote s else s) := by
    rw [mapM_eq_ok_iff, List.forall₂_map_right_iff]
    refine hr.right.flip.imp fun x s hx => ?_
    have hs : names.IsHandle s x := hx
    rw [← hg.isTerminal_eq hs]
    simp only [bind_eq_ok_iff]
    exact ⟨_, rfl, s, NameTable.resolve_of_find? hs, rfl⟩
  rw [ruleText, Rule.textWith]
  simp only [bind_eq_ok_iff]
  exact ⟨_, hright, r.left, NameTable.resolve_of_find? hr.left, rfl⟩

/-- A grammar that reads a grammar over names is listed by these names. -/
theorem Related.listing_eq (hg : named.Related names.IsHandle g) :
    g.listing names = .ok ("\n".intercalate named.lines) := by
  have hrules : g.rules.mapM (g.ruleText names) = .ok (named.rules.map named.ruleLine) := by
    rw [mapM_eq_ok_iff, List.forall₂_map_right_iff]
    exact hg.rules.flip.imp fun _ _ hr => hg.ruleText_eq hr
  have hlines : g.listingLines names = .ok named.lines := by
    rw [listingLines]
    simp only [bind_eq_ok_iff]
    exact ⟨_, NameTable.resolve_of_find? hg.start, _, mapM_resolve hg.terminals,
      _, mapM_resolve hg.nonterminals, _, hrules, rfl⟩
  rw [listing, hlines]
  rfl

end Grammar

end ChartParsing
