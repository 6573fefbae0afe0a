import ChartParsing.Proofs.Chart.Derivations

/-!
# The diagnostics of a filled chart

A character is accounted for when some unit rule expands to a symbol that spells it. The
diagnostics of a chart mark the characters that are not, each once and from left to right,
whatever the policy (`Filling.IsFull.diagnostics_eq`). A text that some symbol derives has no
such character (`Grammar.DerivesText.exists_unit`).
-/

namespace ChartParsing

variable {σ : Type} [DecidableEq σ] {g : Grammar σ} {lookup : Char → Option σ}
variable {spells : σ → Char → Prop} {policy : Policy σ} {text : List Char} {a : σ}

namespace Grammar

/-- Every terminal that is derived stands on the right side of a unit rule. -/
theorem Derives.exists_unit {ts : List σ} (h : g.Derives a ts) {t : σ} (ht : t ∈ ts) :
    ∃ b, t ∈ g.unitRules.get b := by
  induction h with
  | @unit a t' h =>
    rw [List.mem_singleton.1 ht]
    exact ⟨a, h⟩
  | binary h left right ihl ihr =>
    rcases List.mem_append.1 ht with ht | ht
    · exact ihl ht
    · exact ihr ht

/-- Every character of a text that is derived is accounted for. -/
theorem DerivesText.exists_unit (h : g.DerivesText spells a text) {c : Char} (hc : c ∈ text) :
    ∃ b t, t ∈ g.unitRules.get b ∧ spells t c := by
  obtain ⟨ts, hts, hspells⟩ := h
  obtain ⟨t, ht, hs⟩ := exists_of_mem_right hspells hc
  obtain ⟨b, hb⟩ := hts.exists_unit ht
  exact ⟨b, t, hb, hs⟩

/-- There are trees over a character exactly when it is accounted for. -/
theorem characterTrees_ne_nil_iff (hr : g.Reads lookup spells) {i : Nat} {c : Char}
    (hc : text[i]? = some c) :
    g.characterTrees lookup text i ≠ [] ↔ ∃ b t, t ∈ g.unitRules.get b ∧ spells t c := by
  constructor
  · intro hne
    obtain ⟨u, hu⟩ := List.exists_mem_of_ne_nil _ hne
    obtain ⟨b, t, c', hc', hs, ht, rfl⟩ := mem_characterTrees.1 hu
    rw [hc, Option.some.injEq] at hc'
    exact ⟨b, t, ht, (hr.lookup_iff b t ht c).1 (hc' ▸ hs)⟩
  · rintro ⟨b, t, ht, hs⟩
    have hlookup := (hr.lookup_iff b t ht c).2 hs
    exact List.ne_nil_of_mem (mem_characterTrees.2 ⟨b, t, c, hc, hlookup, ht, rfl⟩)

end Grammar

/-- The diagnostics on the characters of a text that are not known, from left to right. -/
def diagnosticsOn (known : Char → Bool) (text : List Char) : List Diagnostic :=
  text.zipIdx.filterMap fun e =>
    if known e.1 then none else some (.unrecognized e.2 (String.singleton e.1))

theorem diagnosticsOn_eq_nil_iff {known : Char → Bool} {text : List Char} :
    diagnosticsOn known text = [] ↔ ∀ c ∈ text, known c = true := by
  rw [diagnosticsOn, List.filterMap_eq_nil_iff]
  constructor
  · intro h c hc
    obtain ⟨i, hi⟩ := List.mem_iff_getElem?.1 hc
    simpa using h (c, i) (List.mem_zipIdx_iff_getElem?.2 hi)
  · intro h e he
    rw [if_pos (h e.1 (List.fst_mem_of_mem_zipIdx he))]

/-- Diagnostics on characters stand in the order of the text. -/
theorem pairwise_diagnosticsOn (known : Char → Bool) (text : List Char) :
    (diagnosticsOn known text).Pairwise fun d e => d.position < e.position := by
  have hpositions : text.zipIdx.Pairwise fun e e' => e.2 < e'.2 := by
    rw [← List.pairwise_map (f := Prod.snd), List.zipIdx_map_snd]
    exact List.pairwise_lt_range'
  refine List.Pairwise.filterMap _ ?_ hpositions
  intro e e' hlt d hd d' hd'
  simp only [Option.ite_none_left_eq_some, Option.some.injEq] at hd hd'
  obtain ⟨-, rfl⟩ := hd
  obtain ⟨-, rfl⟩ := hd'
  exact Int.ofNat_lt.2 hlt

namespace Filling

variable {f : Filling σ}

/-- The diagnostics of a filled chart mark the characters that are not accounted for. -/
theorem IsFull.diagnostics_eq (h : f.IsFull g lookup policy text) (hr : g.Reads lookup spells)
    (hne : text ≠ []) {known : Char → Bool}
    (hknown : ∀ c, known c = true ↔ ∃ b t, t ∈ g.unitRules.get b ∧ spells t c) :
    f.chart.diagnostics = diagnosticsOn known text := by
  have hshortest : (Grammar.shortestSpans text.length).filterMap
      (g.diagnosticOver? lookup policy text) = diagnosticsOn known text := by
    rw [Grammar.shortestSpans_eq_map_zipIdx, List.filterMap_map, diagnosticsOn]
    refine List.filterMap_congr fun e he => ?_
    obtain ⟨c, i⟩ := e
    have hc : text[i]? = some c := List.mem_zipIdx_iff_getElem?.1 he
    have htrees := Grammar.characterTrees_ne_nil_iff hr hc
    rw [← hknown c] at htrees
    by_cases hk : known c = true
    · have hne' : g.characterTrees lookup text i ≠ [] := htrees.2 hk
      simp [Grammar.diagnosticOver?, Grammar.treesOver, hne', hk]
    · have hnil : g.characterTrees lookup text i = [] := by
        simpa [hk] using htrees
      simp [Grammar.diagnosticOver?, Grammar.treesOver, hnil, hk, hc]
  have hremarks : remarksOn text = [] := by simp [remarksOn, hne]
  rw [h.diagnostics_eq_shortest, hshortest, hremarks, List.nil_append]

end Filling

end ChartParsing
