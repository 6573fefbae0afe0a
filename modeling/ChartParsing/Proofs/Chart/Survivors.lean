import ChartParsing.Proofs.Chart.Derivations

/-!
# The symbols that survive over a span

Of the splits of a span that join anything, only one is kept. With the policy that takes the
last one, a symbol survives over a span when a rule derives it at the last split whose parts
have survivors that some rule joins (`Grammar.Survives`), and the symbols of the trees over a
span are the survivors (`exists_mem_treesAt_rightmost_iff`). A survivor derives the span, but
a symbol that derives the span at an earlier split only does not survive.
-/

namespace ChartParsing

namespace Grammar

variable {σ : Type} [DecidableEq σ]

/-- The symbol `a` survives over the `l` characters from position `i`. -/
def Survives (g : Grammar σ) (spells : σ → Char → Prop) (text : List Char) (i l : Nat) (a : σ) :
    Prop :=
  if l = 0 then False
  else if l = 1 then ∃ c, text[i]? = some c ∧ ∃ t ∈ g.unitRules.get a, spells t c
  else
    let joins := fun (k : Nat) (a : σ) => ∃ _h : 0 < k ∧ k < l, ∃ b c,
      (b, c) ∈ g.binaryRules.get a ∧ g.Survives spells text i k b ∧
        g.Survives spells text (i + k) (l - k) c
    ∃ k, joins k a ∧ ∀ m, k < m → ∀ b, ¬ joins m b
termination_by l
decreasing_by all_goals omega

/-- A rule expands `a` to symbols that survive over the two parts of a split. -/
def JoinsAt (g : Grammar σ) (spells : σ → Char → Prop) (text : List Char) (i l k : Nat) (a : σ) :
    Prop :=
  0 < k ∧ k < l ∧ ∃ b c, (b, c) ∈ g.binaryRules.get a ∧ g.Survives spells text i k b ∧
    g.Survives spells text (i + k) (l - k) c

section Equations

variable {g : Grammar σ} {spells : σ → Char → Prop} {text : List Char} {i l : Nat} {a : σ}

theorem not_survives_zero : ¬ g.Survives spells text i 0 a := by
  rw [Survives, if_pos rfl]
  exact id

theorem survives_one : g.Survives spells text i 1 a ↔
    ∃ c, text[i]? = some c ∧ ∃ t ∈ g.unitRules.get a, spells t c := by
  rw [Survives, if_neg (by omega), if_pos rfl]

/-- Over more than one character the last split that joins survivors decides. -/
theorem survives_of_two_le (hl : 2 ≤ l) : g.Survives spells text i l a ↔
    ∃ k, g.JoinsAt spells text i l k a ∧ ∀ m, k < m → ∀ b, ¬ g.JoinsAt spells text i l m b := by
  rw [Survives, if_neg (by omega), if_neg (by omega)]
  simp only [JoinsAt, exists_prop, and_assoc]

/-- What survives over a span derives it. -/
theorem Survives.derivesText (h : g.Survives spells text i l a) (hi : i + l ≤ text.length) :
    g.DerivesText spells a (slice text i l) := by
  induction l using Nat.strongRecOn generalizing i a with
  | _ l ih =>
    by_cases h0 : l = 0
    · subst h0
      exact absurd h not_survives_zero
    by_cases h1 : l = 1
    · subst h1
      obtain ⟨c, hc, ht⟩ := survives_one.1 h
      rw [slice_one hc]
      exact derivesText_singleton.2 ht
    · obtain ⟨k, ⟨hk, hkl, b, c, hrule, hb, hc⟩, -⟩ := (survives_of_two_le (by omega)).1 h
      apply (derivesText_slice_iff (by omega) hi).2
      exact ⟨k, hk, hkl, b, c, hrule, ih k hkl hb (by omega), ih (l - k) (by omega) hc (by omega)⟩

end Equations

/-- The symbols of joined trees are those that a rule expands to symbols of the two lists. -/
theorem exists_mem_joinedTrees_iff {g : Grammar σ} {lefts rights : List (Tree σ)} {a : σ} :
    (∃ t ∈ g.joinedTrees lefts rights, t.kind = a) ↔
      ∃ b c, (b, c) ∈ g.binaryRules.get a ∧ (∃ x ∈ lefts, x.kind = b) ∧
        ∃ y ∈ rights, y.kind = c := by
  constructor
  · rintro ⟨t, ht, rfl⟩
    obtain ⟨a, x, hx, y, hy, hrule, rfl⟩ := mem_joinedTrees.1 ht
    exact ⟨x.kind, y.kind, hrule, ⟨x, hx, rfl⟩, y, hy, rfl⟩
  · rintro ⟨-, -, hrule, ⟨x, hx, rfl⟩, y, hy, rfl⟩
    exact ⟨.branch a x y, mem_joinedTrees.2 ⟨a, x, hx, y, hy, hrule, rfl⟩, rfl⟩

end Grammar

namespace Policy

variable {σ : Type} {cs : List (Candidate σ)} {c : Candidate σ}

/-- Of candidates in increasing order of their splits, the last one has the greatest split. -/
theorem rightmost_eq_candidate_iff (hcs : cs.Pairwise fun c d => c.split < d.split) :
    rightmost cs = .candidate c ↔ c ∈ cs ∧ ∀ d ∈ cs, d.split ≤ c.split := by
  have hlast : rightmost cs = .candidate c ↔ cs.getLast? = some c := by
    rw [rightmost]
    cases cs.getLast? <;> simp [Choice.ofCandidate?]
  rw [hlast, List.getLast?_eq_some_iff]
  constructor
  · rintro ⟨init, rfl⟩
    refine ⟨by simp, fun d hd => ?_⟩
    rcases List.mem_append.1 hd with hd | hd
    · exact Int.le_of_lt ((List.pairwise_append.1 hcs).2.2 d hd c (List.mem_singleton_self c))
    · exact Int.le_of_eq (congrArg Candidate.split (List.mem_singleton.1 hd))
  · rintro ⟨hc, hmax⟩
    obtain ⟨init, rest, rfl⟩ := List.append_of_mem hc
    cases rest with
    | nil => exact ⟨init, rfl⟩
    | cons d rest =>
      have hcd := (List.pairwise_cons.1 (List.pairwise_append.1 hcs).2.1).1 d List.mem_cons_self
      have hdc := hmax d (by simp)
      omega

theorem mem_trees_rightmost {t : Tree σ} (h : t ∈ (rightmost cs).trees) :
    ∃ c, rightmost cs = .candidate c ∧ t ∈ c.cell.nodes := by
  by_cases hcs : cs = []
  · rw [hcs] at h
    cases h
  · obtain ⟨c, -, hc, htrees⟩ := rightmost_isDecisive.exists_candidate hcs
    exact ⟨c, hc, htrees ▸ h⟩

end Policy

namespace Grammar

variable {σ : Type} [DecidableEq σ] {g : Grammar σ} {lookup : Char → Option σ}
variable {spells : σ → Char → Prop} {text : List Char}

/-- When the last split wins, the trees over a span are those of the last split that joins
anything. -/
theorem mem_treesAt_rightmost_iff {i l : Nat} (hl : 2 ≤ l) {t : Tree σ} :
    t ∈ g.treesAt lookup .rightmost text i l ↔
      ∃ k, 0 < k ∧ k < l ∧ t ∈ g.joinedAt lookup .rightmost text i l k ∧
        ∀ m, k < m → m < l → g.joinedAt lookup .rightmost text i l m = [] := by
  rw [treesAt_of_two_le hl]
  constructor
  · intro ht
    obtain ⟨c, hc, ht⟩ := Policy.mem_trees_rightmost ht
    obtain ⟨hmem, hmax⟩ := (Policy.rightmost_eq_candidate_iff pairwise_candidatesAt).1 hc
    obtain ⟨k, hk, hkl, -, rfl⟩ := mem_candidatesAt.1 hmem
    refine ⟨k, hk, hkl, ht, fun m hm hml => ?_⟩
    apply Decidable.byContradiction
    intro hne
    have hle := hmax _ (mem_candidatesAt.2 ⟨m, by omega, hml, hne, rfl⟩)
    exact absurd (Int.ofNat_le.1 hle) (Nat.not_le.2 hm)
  · rintro ⟨k, hk, hkl, ht, hlast⟩
    have hmem := mem_candidatesAt.2 ⟨k, hk, hkl, List.ne_nil_of_mem ht, rfl⟩
    have hmax : ∀ d ∈ g.candidatesAt lookup .rightmost text i l, d.split ≤ (k : Int) := by
      intro d hd
      obtain ⟨m, -, hml, hne, rfl⟩ := mem_candidatesAt.1 hd
      apply Int.ofNat_le.2
      apply Nat.le_of_not_lt
      exact fun hkm => hne (hlast m hkm hml)
    rw [(Policy.rightmost_eq_candidate_iff pairwise_candidatesAt).2 ⟨hmem, hmax⟩]
    exact ht

/-- The symbols of the trees over one character survive. -/
theorem exists_mem_characterTrees_iff (hr : g.Reads lookup spells) {i : Nat} {a : σ} :
    (∃ t ∈ g.characterTrees lookup text i, t.kind = a) ↔ g.Survives spells text i 1 a := by
  rw [survives_one]
  constructor
  · rintro ⟨t, ht, rfl⟩
    obtain ⟨a, s, c, hc, hs, ha, rfl⟩ := mem_characterTrees.1 ht
    exact ⟨c, hc, s, ha, (hr.lookup_iff a s ha c).1 hs⟩
  · rintro ⟨c, hc, s, ha, hs⟩
    refine ⟨.unary a ⟨s, i⟩, mem_characterTrees.2 ?_, rfl⟩
    exact ⟨a, s, c, hc, (hr.lookup_iff a s ha c).2 hs, ha, rfl⟩

/-- When the last split wins, the symbols of the trees over a span are its survivors. -/
theorem exists_mem_treesAt_rightmost_iff (hr : g.Reads lookup spells) {i l : Nat} {a : σ} :
    (∃ t ∈ g.treesAt lookup .rightmost text i l, t.kind = a) ↔ g.Survives spells text i l a := by
  induction l using Nat.strongRecOn generalizing i a with
  | _ l ih =>
    by_cases h0 : l = 0
    · subst h0
      rw [treesAt_zero]
      simp [not_survives_zero]
    by_cases h1 : l = 1
    · subst h1
      rw [treesAt_one]
      exact exists_mem_characterTrees_iff hr
    · have hjoins : ∀ k, 0 < k → k < l → ∀ a,
          (∃ t ∈ g.joinedAt lookup .rightmost text i l k, t.kind = a) ↔
            g.JoinsAt spells text i l k a := by
        intro k hk hkl a
        rw [joinedAt, exists_mem_joinedTrees_iff]
        simp only [ih k hkl, ih (l - k) (by omega), JoinsAt, hk, hkl, true_and]
      rw [survives_of_two_le (by omega)]
      constructor
      · rintro ⟨t, ht, rfl⟩
        obtain ⟨k, hk, hkl, ht, hlast⟩ := (mem_treesAt_rightmost_iff (by omega)).1 ht
        refine ⟨k, (hjoins k hk hkl _).1 ⟨t, ht, rfl⟩, fun m hm b hb => ?_⟩
        obtain ⟨u, hu, -⟩ := (hjoins m hb.1 hb.2.1 b).2 hb
        rw [hlast m hm hb.2.1] at hu
        cases hu
      · rintro ⟨k, ha, hlast⟩
        obtain ⟨t, ht, hkind⟩ := (hjoins k ha.1 ha.2.1 a).2 ha
        refine ⟨t, (mem_treesAt_rightmost_iff (by omega)).2 ?_, hkind⟩
        refine ⟨k, ha.1, ha.2.1, ht, fun m hm hml => ?_⟩
        rw [List.eq_nil_iff_forall_not_mem]
        intro u hu
        exact hlast m hm u.kind ((hjoins m (by omega) hml u.kind).1 ⟨u, hu, rfl⟩)

end Grammar

end ChartParsing
