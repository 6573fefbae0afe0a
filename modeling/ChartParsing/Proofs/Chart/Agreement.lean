import ChartParsing.Proofs.Chart.Survivors

/-!
# When competition loses nothing

A policy that chooses among its candidates loses the symbols that only the other candidates
have. If no span has two splits that derive different symbols (`Grammar.IsUniform`), there is
nothing to lose, and the symbols of the trees over every span are the symbols that derive it,
whatever the policy chooses (`exists_mem_treesAt_iff_derivesText`). That no span has such
splits can be seen from the contests of one policy (`isUniform_of_sameKinds`). If no span has
two candidates at all, all policies list the same trees (`treesAt_eq_of_decisive`).
-/

namespace ChartParsing

variable {σ : Type}

/-- The cells of all candidates have the same symbols. -/
def SameKinds (cs : List (Candidate σ)) : Prop :=
  ∀ c ∈ cs, ∀ d ∈ cs, ∀ a, a ∈ c.cell.kinds ↔ a ∈ d.cell.kinds

theorem sameKinds_of_length_le_one {cs : List (Candidate σ)} (h : cs.length ≤ 1) :
    SameKinds cs := by
  match cs, h with
  | [], _ =>
    intro c hc
    cases hc
  | [e], _ =>
    intro c hc d hd a
    rw [List.mem_singleton.1 hc, List.mem_singleton.1 hd]

namespace Filling

/-- In every contest that was held all candidates had the same symbols. -/
def ContestsAgree (f : Filling σ) : Prop :=
  ∀ contest ∈ f.contests, SameKinds contest.candidates

/-- The log tells of no splits that compete. -/
def LogsNoCompetition (f : Filling σ) : Prop :=
  ∀ span splits committed, LogEntry.competing span splits committed ∉ f.log

end Filling

variable [DecidableEq σ]

namespace Grammar

variable {g : Grammar σ} {lookup : Char → Option σ} {spells : σ → Char → Prop}
variable {policy policy' : Policy σ} {text : List Char} {i l : Nat} {a : σ}

/-- A rule expands `a` to symbols that derive the two parts of a split. -/
def DerivesAt (g : Grammar σ) (spells : σ → Char → Prop) (text : List Char) (i l k : Nat) (a : σ) :
    Prop :=
  0 < k ∧ k < l ∧ ∃ b c, (b, c) ∈ g.binaryRules.get a ∧
    g.DerivesText spells b (slice text i k) ∧ g.DerivesText spells c (slice text (i + k) (l - k))

/-- Any two splits of a span that derive anything derive the same symbols. -/
def IsUniformOver (g : Grammar σ) (spells : σ → Char → Prop) (text : List Char) (i l : Nat) :
    Prop :=
  ∀ k m a b, g.DerivesAt spells text i l k a → g.DerivesAt spells text i l m b →
    g.DerivesAt spells text i l m a

/-- Any two splits of a span of the text that derive anything derive the same symbols. -/
def IsUniform (g : Grammar σ) (spells : σ → Char → Prop) (text : List Char) : Prop :=
  ∀ i l, 2 ≤ l → i + l ≤ text.length → g.IsUniformOver spells text i l

/-! ### One span -/

/-- If the parts of the splits of a span are exact, its splits join what they derive. -/
theorem exists_mem_joinedAt_iff (hi : i + l ≤ text.length)
    (hparts : ∀ j m, m < l → j + m ≤ text.length → g.IsExactOver lookup spells policy text j m)
    {k : Nat} (hk : 0 < k) (hkl : k < l) :
    (∃ t ∈ g.joinedAt lookup policy text i l k, t.kind = a) ↔ g.DerivesAt spells text i l k a := by
  rw [joinedAt, exists_mem_joinedTrees_iff]
  simp only [hparts i k hkl (by omega) _, hparts (i + k) (l - k) (by omega) (by omega) _,
    DerivesAt, hk, hkl, true_and]

/-- If moreover the candidates have the same symbols, the splits derive the same symbols. -/
theorem isUniformOver_of_sameKinds (hi : i + l ≤ text.length)
    (hparts : ∀ j m, m < l → j + m ≤ text.length → g.IsExactOver lookup spells policy text j m)
    (hsame : SameKinds (g.candidatesAt lookup policy text i l)) :
    g.IsUniformOver spells text i l := by
  intro k m a b ha hb
  obtain ⟨t, ht, hta⟩ := (exists_mem_joinedAt_iff hi hparts ha.1 ha.2.1).2 ha
  obtain ⟨u, hu, -⟩ := (exists_mem_joinedAt_iff hi hparts hb.1 hb.2.1).2 hb
  have hc := mem_candidatesAt.2 ⟨k, ha.1, ha.2.1, List.ne_nil_of_mem ht, rfl⟩
  have hd := mem_candidatesAt.2 ⟨m, hb.1, hb.2.1, List.ne_nil_of_mem hu, rfl⟩
  have hkinds := (hsame _ hc _ hd a).1 (List.mem_map.2 ⟨t, ht, hta⟩)
  exact (exists_mem_joinedAt_iff hi hparts hb.1 hb.2.1).1 (List.mem_map.1 hkinds)

/-- If the parts are exact and the splits derive the same symbols, every choice is exact. -/
theorem isExactOver_of_isUniformOver (hr : g.Reads lookup spells) (hp : policy.IsDecisive)
    (hl : 2 ≤ l) (hi : i + l ≤ text.length)
    (hparts : ∀ j m, m < l → j + m ≤ text.length → g.IsExactOver lookup spells policy text j m)
    (huniform : g.IsUniformOver spells text i l) :
    g.IsExactOver lookup spells policy text i l := by
  intro a
  constructor
  · rintro ⟨t, ht, rfl⟩
    exact derivesText_of_mem_treesAt hr hp.onlyPicks ht
  · intro h
    obtain ⟨k, hk, hkl, hrule⟩ := (derivesText_slice_iff hl hi).1 h
    have ha : g.DerivesAt spells text i l k a := ⟨hk, hkl, hrule⟩
    obtain ⟨t, ht, -⟩ := (exists_mem_joinedAt_iff hi hparts hk hkl).2 ha
    have hne : g.candidatesAt lookup policy text i l ≠ [] :=
      List.ne_nil_of_mem (mem_candidatesAt.2 ⟨k, hk, hkl, List.ne_nil_of_mem ht, rfl⟩)
    -- the candidate that is chosen may come from another split
    obtain ⟨c, hc, -, htrees⟩ := hp.exists_candidate hne
    obtain ⟨m, hm, hml, hjoined, rfl⟩ := mem_candidatesAt.1 hc
    obtain ⟨u, hu⟩ := List.exists_mem_of_ne_nil _ hjoined
    have hb := (exists_mem_joinedAt_iff hi hparts hm hml).1 ⟨u, hu, rfl⟩
    rw [treesAt_of_two_le hl, htrees]
    exact (exists_mem_joinedAt_iff hi hparts hm hml).2 (huniform k m a _ ha hb)

/-- Over one character and over none every policy is exact. -/
theorem isExactOver_of_lt_two (hr : g.Reads lookup spells) (hp : policy.OnlyPicks) (hl : l < 2)
    (hi : i + l ≤ text.length) : g.IsExactOver lookup spells policy text i l := by
  intro a
  constructor
  · rintro ⟨t, ht, rfl⟩
    exact derivesText_of_mem_treesAt hr hp ht
  · intro h
    have h0 : l ≠ 0 := by
      rintro rfl
      exact h.ne_nil rfl
    obtain rfl : l = 1 := by omega
    obtain ⟨t, ht, hkind, hspan⟩ := (derivesText_iff_exists_isParse hi).1 h
    refine ⟨t, ?_, hkind⟩
    rw [treesAt_one]
    exact (mem_characterTrees_iff_isParse hr).2 ⟨ht, hspan⟩

/-! ### All spans -/

/-- If the splits of every span derive the same symbols, every choice is exact everywhere. -/
theorem isExactOver_of_isUniform (hr : g.Reads lookup spells) (hp : policy.IsDecisive)
    (huniform : g.IsUniform spells text) (hi : i + l ≤ text.length) :
    g.IsExactOver lookup spells policy text i l := by
  induction l using Nat.strongRecOn generalizing i with
  | _ l ih =>
    by_cases hl : 2 ≤ l
    · exact isExactOver_of_isUniformOver hr hp hl hi (fun j m hm hj => ih m hm hj)
        (huniform i l hl hi)
    · exact isExactOver_of_lt_two hr hp.onlyPicks (by omega) hi

/-- If the candidates of every span have the same symbols under one policy, the splits of
every span derive the same symbols. -/
theorem isUniform_of_sameKinds (hr : g.Reads lookup spells) (hp : policy.IsDecisive)
    (hsame : ∀ i l, 2 ≤ l → i + l ≤ text.length →
      SameKinds (g.candidatesAt lookup policy text i l)) : g.IsUniform spells text := by
  have hexact : ∀ l i, i + l ≤ text.length → g.IsExactOver lookup spells policy text i l := by
    intro l
    induction l using Nat.strongRecOn with
    | _ l ih =>
      intro i hi
      by_cases hl : 2 ≤ l
      · have hparts : ∀ j m, m < l → j + m ≤ text.length →
            g.IsExactOver lookup spells policy text j m := fun j m hm => ih m hm j
        exact isExactOver_of_isUniformOver hr hp hl hi hparts
          (isUniformOver_of_sameKinds hi hparts (hsame i l hl hi))
      · exact isExactOver_of_lt_two hr hp.onlyPicks (by omega) hi
  exact fun i l hl hi => isUniformOver_of_sameKinds hi (fun j m _ => hexact m j) (hsame i l hl hi)

/-- If no span has two candidates under one policy, every policy that chooses a candidate
lists the same trees. -/
theorem treesAt_eq_of_decisive (hr : g.Reads lookup spells) (hp : policy.IsDecisive)
    (hp' : policy'.IsDecisive)
    (hone : ∀ i l, 2 ≤ l → i + l ≤ text.length →
      (g.candidatesAt lookup policy text i l).length ≤ 1) :
    g.treesAt lookup policy' text i l = g.treesAt lookup policy text i l := by
  induction l using Nat.strongRecOn generalizing i with
  | _ l ih =>
    by_cases hl : 2 ≤ l
    · by_cases hi : i + l ≤ text.length
      · have hcandidates : g.candidatesAt lookup policy' text i l =
            g.candidatesAt lookup policy text i l := candidatesOf_congr fun j m hm => ih m hm
        rw [treesAt_of_two_le hl, treesAt_of_two_le hl, hcandidates]
        match hcs : g.candidatesAt lookup policy text i l, hone i l hl hi with
        | [], _ => rw [hp.trees_nil, hp'.trees_nil]
        | [c], _ =>
          obtain ⟨d, hd, -, htrees⟩ := hp.exists_candidate (List.cons_ne_nil c [])
          obtain ⟨d', hd', -, htrees'⟩ := hp'.exists_candidate (List.cons_ne_nil c [])
          rw [htrees, htrees', List.mem_singleton.1 hd, List.mem_singleton.1 hd']
      · rw [treesAt_eq_nil hr hp'.onlyPicks (by omega), treesAt_eq_nil hr hp.onlyPicks (by omega)]
    · by_cases h0 : l = 0
      · subst h0
        rw [treesAt_zero, treesAt_zero]
      · obtain rfl : l = 1 := by omega
        rw [treesAt_one, treesAt_one]

end Grammar

namespace Filling

open Grammar

variable {g : Grammar σ} {lookup : Char → Option σ} {policy policy' : Policy σ}
variable {text : List Char} {f f' : Filling σ} {i l : Nat}

/-- The contests of a filled chart are held for the spans of more than one character, with the
candidates of the recurrence. -/
theorem IsFull.mem_contests_iff (h : f.IsFull g lookup policy text)
    {contest : Contest σ} : contest ∈ f.contests ↔ ∃ i l : Nat, 2 ≤ l ∧ i + l ≤ text.length ∧
      contest = g.contestOver lookup policy text ⟨i, l⟩ := by
  rw [h.contests, List.mem_filterMap]
  constructor
  · rintro ⟨s, hs, hcontest⟩
    obtain ⟨i, l, hl, hi, rfl⟩ := mem_spansOf.1 hs
    rw [contestOver?, Option.ite_none_left_eq_some] at hcontest
    obtain ⟨hlen, hcontest⟩ := hcontest
    have hlen : ¬ (l : Int) = 1 := hlen
    exact ⟨i, l, by omega, hi, (Option.some.inj hcontest).symm⟩
  · rintro ⟨i, l, hl, hi, rfl⟩
    have hlen : ¬ (l : Int) = 1 := by omega
    exact ⟨⟨i, l⟩, mem_spansOf.2 ⟨i, l, by omega, hi, rfl⟩, if_neg hlen⟩

theorem IsFull.contestsAgree_iff (h : f.IsFull g lookup policy text) :
    f.ContestsAgree ↔ ∀ i l, 2 ≤ l → i + l ≤ text.length →
      SameKinds (g.candidatesAt lookup policy text i l) := by
  constructor
  · intro hagree i l hl hi
    exact hagree _ (h.mem_contests_iff.2 ⟨i, l, hl, hi, rfl⟩)
  · intro hsame contest hcontest
    obtain ⟨i, l, hl, hi, rfl⟩ := h.mem_contests_iff.1 hcontest
    exact hsame i l hl hi

/-- If the log tells of no splits that compete, no span has two candidates. -/
theorem IsFull.length_candidatesAt_le_one (h : f.IsFull g lookup policy text)
    (hp : policy.IsDecisive) (hlog : f.LogsNoCompetition) (hl : 2 ≤ l)
    (hi : i + l ≤ text.length) :
    (g.candidatesAt lookup policy text i l).length ≤ 1 := by
  apply Nat.le_of_not_lt
  intro hmany
  obtain ⟨c, hc, -, htrees⟩ := hp.exists_candidate
    (List.ne_nil_of_length_pos (Nat.lt_trans Nat.zero_lt_one hmany))
  have hne : g.treesAt lookup policy text i l ≠ [] := by
    rw [treesAt_of_two_le hl, htrees]
    exact nodes_ne_nil_of_mem_candidatesOf hc
  have hlen : ¬ (l : Int) = 1 := by omega
  have hentry : g.logOver? lookup policy text ⟨i, l⟩ =
      contestLog (g.contestOver lookup policy text ⟨i, l⟩) := by
    simp [logOver?, hlen, hne]
  have hs : (⟨i, l⟩ : Span) ∈ spansOf text.length := mem_spansOf.2 ⟨i, l, by omega, hi, rfl⟩
  have hmem := List.mem_filterMap.2 ⟨_, hs, hentry.trans (if_pos hmany)⟩
  rw [← h.log] at hmem
  exact hlog _ _ _ hmem

/-- The chart shows the trees of the recurrence and nothing that depends on the policy beside
them. -/
theorem IsFull.chart_eq (h : f.IsFull g lookup policy text)
    (h' : f'.IsFull g lookup policy' text)
    (htrees : ∀ i l, g.treesAt lookup policy' text i l = g.treesAt lookup policy text i l) :
    f'.chart = f.chart := by
  have hover : ∀ s, g.treesOver lookup policy' text s = g.treesOver lookup policy text s :=
    fun s => htrees _ _
  apply Chart.eq_of_entries
  · rw [h'.size, h.size]
  · rw [h'.entries, h.entries]
    apply List.filterMap_congr
    intro s _
    rw [cellOver?, cellOver?, hover]
  · rw [h'.diagnostics, h.diagnostics]
    congr 1
    apply List.filterMap_congr
    intro s _
    rw [diagnosticOver?, diagnosticOver?, hover]
  · exact h'.index
  · exact h.index

/-- Without two candidates over a span the log tells nothing of the policy. -/
theorem IsFull.log_eq (h : f.IsFull g lookup policy text)
    (h' : f'.IsFull g lookup policy' text)
    (htrees : ∀ i l, g.treesAt lookup policy' text i l = g.treesAt lookup policy text i l)
    (hone : ∀ i l, 2 ≤ l → i + l ≤ text.length →
      (g.candidatesAt lookup policy text i l).length ≤ 1) : f'.log = f.log := by
  rw [h'.log, h.log]
  apply List.filterMap_congr
  intro s hs
  obtain ⟨i, l, hl, hi, rfl⟩ := mem_spansOf.1 hs
  have hover : g.treesOver lookup policy' text ⟨i, l⟩ = g.treesOver lookup policy text ⟨i, l⟩ :=
    htrees i l
  have hcandidates : g.candidatesAt lookup policy' text i l =
      g.candidatesAt lookup policy text i l := candidatesOf_congr fun j m _ => htrees j m
  by_cases hlen : l = 1
  · subst hlen
    simp only [logOver?, hover]
    rfl
  · have hfew : ¬ (g.candidatesAt lookup policy text i l).length > 1 :=
      Nat.not_lt.2 (hone i l (by omega) hi)
    have hnone : contestLog (g.contestOver lookup policy text ⟨i, l⟩) = none := if_neg hfew
    have hnone' : contestLog (g.contestOver lookup policy' text ⟨i, l⟩) = none := by
      rw [← hcandidates] at hfew
      exact if_neg hfew
    simp only [logOver?, hover, hnone, hnone']

end Filling

end ChartParsing
