import ChartParsing.Proofs.Chart.OneLetter
import ChartParsing.Proofs.Parser.Solutions

/-!
# Combs of one letter

`Builder.ambiguous` brackets letters in every way, so the policy alone gives the tree its shape. A
text of letters has one tree over every span, whichever split is chosen; it is a left comb if the
last split wins and a right comb if the first one does (`Parser.parse_letters`).
-/

namespace ChartParsing

/-- The declarations of `Builder.ambiguous`. -/
def letterRules : Declarations String where
  start := "S"
  terminals := ["a"]
  nonterminals := ["S"]
  binary := [("S", "S", "S")]
  unit := [("S", "a")]

/-- The texts that each name of `letterRules` stands for. -/
def letterTexts : String → List Char → Prop
  | "S" => fun w => w ≠ [] ∧ ∀ c ∈ w, c = 'a'
  | _ => fun _ => False

theorem letterTexts_singleton : letterTexts "S" ['a'] :=
  ⟨List.cons_ne_nil _ _, fun _ hc => List.mem_singleton.1 hc⟩

theorem solves_letterRules : letterRules.Solves letterTexts where
  unit := by
    simp only [letterRules, List.forall_mem_cons]
    exact ⟨letterTexts_singleton, by simp⟩
  binary := by
    simp only [letterRules, List.forall_mem_cons]
    refine ⟨fun u v hu hv => ?_, by simp⟩
    obtain ⟨hne, hu⟩ : u ≠ [] ∧ ∀ c ∈ u, c = 'a' := hu
    obtain ⟨-, hv⟩ : v ≠ [] ∧ ∀ c ∈ v, c = 'a' := hv
    exact ⟨List.append_ne_nil_of_left_ne_nil hne v, List.forall_mem_append.2 ⟨hu, hv⟩⟩
  ne_nil s h := by
    unfold letterTexts at h
    split at h
    · exact h.1 rfl
    · exact h
  last_rule s w h := by
    unfold letterTexts at h
    split at h
    · obtain ⟨hne, hall⟩ := h
      obtain ⟨c, w, rfl⟩ := List.exists_cons_of_ne_nil hne
      obtain ⟨rfl, hrest⟩ := List.forall_mem_cons.1 hall
      by_cases hw : w = []
      · subst hw
        exact .inl ⟨("S", "a"), by decide, rfl, rfl⟩
      · exact .inr ⟨['a'], w, rfl, "S", "S", by decide, letterTexts_singleton, hw, hrest⟩
    · exact h.elim

/-- There is only one name to cut a text for. -/
theorem cutsAgree_letterRules : letterRules.CutsAgree letterTexts := by
  have hname : ∀ {s u v}, letterRules.Cuts letterTexts s u v → s = "S" := by
    rintro s u v ⟨first, second, hr, -⟩
    simp only [letterRules, List.mem_singleton, Prod.mk.injEq] at hr
    exact hr.1
  exact Declarations.cutsAgree_of_disjoint fun s s' u v u' v' hcut hcut' _ =>
    (hname hcut).trans (hname hcut').symm

namespace Parser

open Grammar

/-- The start symbol of the grammar doubles the letter. -/
theorem exists_doubles_of_isRead {names : NameTable} {d : Declarations Symbol}
    (h : letterRules.IsRead names d) :
    ∃ a, names.IsHandle "a" a ∧ (ofDeclarations d).Doubles d.start a := by
  obtain ⟨⟨x, y, z⟩, rest, ⟨hx, hy, hz⟩, hnil, hbinary⟩ := List.forall₂_cons_left_iff.1 h.binary
  obtain ⟨⟨u, a⟩, rest', ⟨hu, ha⟩, hnil', hunit⟩ := List.forall₂_cons_left_iff.1 h.unit
  obtain rfl := List.forall₂_nil_left_iff.1 hnil
  obtain rfl := List.forall₂_nil_left_iff.1 hnil'
  have hone : ∀ {b}, names.IsHandle "S" b → b = d.start :=
    fun hb => names.biUnique_isHandle.2 hb h.start
  obtain rfl := hone hx
  obtain rfl := hone hy
  obtain rfl := hone hz
  obtain rfl := hone hu
  exact ⟨a, ha, doubles_ofDeclarations hunit hbinary⟩

/-- The grammar of one letter is built over any table. A policy that chooses a split wherever there
is one recognizes the texts that have letters and nothing else, and in their charts each span has
one tree and all its splits are candidates. The tree of the text is the left comb if the last split
wins, and the right comb if the first one does. -/
theorem parse_letters (before : NameTable) : ∃ g after,
    Builder.ambiguous.build before = (.ok g, after) ∧ ∀ names, after.GrowsTo names → ∃ s a,
      names.IsHandle "S" s ∧ names.IsHandle "a" a ∧
      (∀ policy : Policy Symbol, policy.IsDecisive → ∀ text, ∃ r,
        (Parser.mk g policy none).recognize names text = .ok r ∧
        (r = true ↔ text.toList ≠ [] ∧ ∀ c ∈ text.toList, c = 'a')) ∧
      ∀ n text, text.toList = List.replicate (n + 1) 'a' →
        (∀ policy : Policy Symbol, policy.IsDecisive → ∃ f,
          (Parser.mk g policy none).fill names text = .ok f ∧ f.IsSaturated s (n + 1)) ∧
        ((Parser.mk g .rightmost none).parse names text).result = .ok (.leftComb s a n) ∧
        (Tree.leftComb s a n).HasRightTeeth ∧
        ((Parser.mk g .leftmost none).parse names text).result = .ok (.rightComb s a n) ∧
        (Tree.rightComb s a n).HasLeftTeeth := by
  obtain ⟨d, hd, hc⟩ : ∃ d, Builder.ambiguous.describe = .ok d ∧ d.check = .ok letterRules :=
    ⟨_, rfl, rfl⟩
  have hconsistent := (Description.check_eq_ok_iff.1 hc).2
  obtain ⟨c', after, hbuild, hover⟩ := Builder.exists_build_of_check hd hc before
  refine ⟨_, after, hbuild, fun names hnames => ?_⟩
  obtain ⟨hread, hg⟩ := hover names hnames
  obtain ⟨a, ha, hdoubles⟩ := exists_doubles_of_isRead hread
  refine ⟨c'.start, a, hread.start, ha, fun policy hp text => ?_, fun n text htext => ?_⟩
  · exact recognize_of_solves hconsistent solves_letterRules cutsAgree_letterRules hread hg hp text
  have hletters : ∀ c ∈ text.toList, characterSymbol names c = some a := by
    intro c hc
    rw [htext] at hc
    obtain rfl := List.eq_of_mem_replicate hc
    exact ha
  have hlength : text.toList.length = n + 1 := by
    rw [htext, List.length_replicate]
  have hadmits := fun policy => admits_of_no_limit (ofDeclarations c') policy text
  refine ⟨fun policy hp => ?_, ?_, Tree.hasRightTeeth_leftComb n, ?_, ?_⟩
  · obtain ⟨f, hfill, hf⟩ := exists_fill hg hp.staysOver (hadmits policy)
    exact ⟨f, hfill, hlength ▸ hdoubles.isSaturated hletters hp hf⟩
  · refine parse_eq_ok_of_rootTrees hg Policy.rightmost_isDecisive.staysOver (hadmits _) ?_
      (Tree.kind_leftComb n)
    rw [rootTrees, hlength]
    exact hdoubles.treesAt_rightmost hletters (by omega)
  · refine parse_eq_ok_of_rootTrees hg Policy.leftmost_isDecisive.staysOver (hadmits _) ?_ ?_
    · rw [rootTrees, hlength, Tree.rightComb_eq]
      exact hdoubles.treesAt_leftmost hletters (by omega)
    · rw [Tree.rightComb_eq]
      exact Tree.kind_rightCombFrom 0 n
  · rw [Tree.rightComb_eq]
    exact Tree.hasLeftTeeth_rightCombFrom 0 n

end Parser

end ChartParsing
