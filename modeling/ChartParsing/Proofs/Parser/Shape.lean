import ChartParsing.Proofs.Parser.Answers
import ChartParsing.Proofs.Tree.Shape

/-!
# The shape of the trees that a parser gives

A policy that invents nothing chooses which parse tree of a text is given, but not how many nodes
it has: these are as many as for every other tree over the same characters.
-/

namespace ChartParsing.Parser

variable {p : Parser} {names : NameTable} {text : String}

/-- The tree that is given for a text of `n` characters has one leaf for each of them, under a unit
node of its own, and `n - 1` binary nodes, so `3 * n - 1` nodes; its height is at most `n`, and `n`
is at most two to the height less one. -/
theorem shape_of_root (hg : p.grammar.IsBuiltOver names) (hp : p.policy.IsHonest)
    {root : Tree Symbol} (hroot : (p.parse names text).result = .ok root) :
    root.IsShapedOver 0 text.length := by
  obtain ⟨-, hfind⟩ := (parse_eq_ok_iff hg hp.staysOver).1 hroot
  obtain ⟨hparse, hspan⟩ := Grammar.isParse_of_mem_treesAt hg.reads hp.onlyPicks
    (List.mem_of_find?_eq_some hfind)
  rw [← String.length_toList]
  exact hparse.isShapedOver hspan

/-- Four letters under the most ambiguous grammar: eleven nodes on four levels below the root. -/
theorem shape_of_four_letters :
    Grammar.letters.IsBuiltOver Grammar.letterNames ∧ (ofGrammar .letters).policy.IsHonest ∧
      ∃ root, ((ofGrammar .letters).parse Grammar.letterNames "aaaa").result = .ok root ∧
        root.IsShapedOver 0 4 ∧ root.size = 11 ∧ root.height = 4 := by
  have hroot : ((ofGrammar .letters).parse Grammar.letterNames "aaaa").result =
      .ok (.leftComb 0 1 3) :=
    eq_ok_of_toOption (by decide +kernel)
  have hp : (ofGrammar .letters).policy.IsHonest := Policy.rightmost_isHonest
  have hshape := shape_of_root Grammar.letters_isBuiltOver hp hroot
  have hsize := hshape.size_succ
  refine ⟨Grammar.letters_isBuiltOver, hp, _, hroot, hshape, ?_, ?_⟩
  · have : "aaaa".length = 4 := rfl
    omega
  · rw [Tree.height_eq]
    rfl

end ChartParsing.Parser
