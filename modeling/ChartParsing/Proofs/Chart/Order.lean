import ChartParsing.Chart.Filling

/-!
# The order of the spans

The spans of a text are decided from the shortest to the longest and from left to right.
`spansOf` lists them in that order: each span stands after all spans that precede it
(`pairwise_spansOf`), so the parts of a span are decided before the span itself
(`mem_of_precedes`).
-/

namespace ChartParsing

/-- A span is decided before another one if it is shorter, or as long and further left. -/
def Span.Precedes (s t : Span) : Prop :=
  s.length < t.length ∨ s.length = t.length ∧ s.start < t.start

theorem Span.Precedes.ne {s t : Span} (h : s.Precedes t) : s ≠ t := by
  rintro rfl
  rcases h with h | ⟨-, h⟩ <;> omega

namespace Grammar

/-- The spans of one character in a text of a size, from left to right. -/
def shortestSpans (size : Nat) : List Span :=
  (List.range size).map fun i => ⟨Int.ofNat i, 1⟩

/-- All spans of a text of a size that are not empty, in the order in which they are
decided. -/
def spansOf (size : Nat) : List Span :=
  shortestSpans size ++ longerSpans size

/-- The spans of one character are those of the characters of a text. -/
theorem shortestSpans_eq_map_zipIdx (text : List Char) :
    shortestSpans text.length = text.zipIdx.map fun e => ⟨e.2, 1⟩ := by
  have hpositions := List.zipIdx_map_snd 0 text
  rw [← List.range_eq_range'] at hpositions
  rw [shortestSpans, ← hpositions, List.map_map]
  rfl

theorem mem_shortestSpans {n : Nat} {s : Span} :
    s ∈ shortestSpans n ↔ ∃ i : Nat, i < n ∧ s = ⟨i, 1⟩ := by
  simp only [shortestSpans, List.mem_map, List.mem_range]
  constructor
  · rintro ⟨i, hi, rfl⟩
    exact ⟨i, hi, rfl⟩
  · rintro ⟨i, hi, rfl⟩
    exact ⟨i, hi, rfl⟩

theorem mem_longerSpans {n : Nat} {s : Span} :
    s ∈ longerSpans n ↔ ∃ i l : Nat, 2 ≤ l ∧ i + l ≤ n ∧ s = ⟨i, l⟩ := by
  simp only [longerSpans, List.mem_flatMap, List.mem_map, List.mem_range]
  constructor
  · rintro ⟨m, hm, i, hi, rfl⟩
    exact ⟨i, m + 2, by omega, by omega, rfl⟩
  · rintro ⟨i, l, hl, hi, rfl⟩
    obtain ⟨m, rfl⟩ := Nat.exists_eq_add_of_le hl
    exact ⟨m, by omega, i, by omega, by simp [Nat.add_comm]⟩

theorem mem_spansOf {n : Nat} {s : Span} :
    s ∈ spansOf n ↔ ∃ i l : Nat, 0 < l ∧ i + l ≤ n ∧ s = ⟨i, l⟩ := by
  rw [spansOf, List.mem_append, mem_shortestSpans, mem_longerSpans]
  constructor
  · rintro (⟨i, hi, rfl⟩ | ⟨i, l, hl, hi, rfl⟩)
    · exact ⟨i, 1, by omega, by omega, rfl⟩
    · exact ⟨i, l, by omega, hi, rfl⟩
  · rintro ⟨i, l, hl, hi, rfl⟩
    by_cases h1 : l = 1
    · subst h1
      exact .inl ⟨i, by omega, rfl⟩
    · exact .inr ⟨i, l, by omega, hi, rfl⟩

theorem pairwise_shortestSpans (n : Nat) : (shortestSpans n).Pairwise Span.Precedes := by
  refine List.Pairwise.map _ ?_ List.pairwise_lt_range
  intro i j hij
  exact .inr ⟨rfl, show (i : Int) < j by omega⟩

theorem pairwise_longerSpans (n : Nat) : (longerSpans n).Pairwise Span.Precedes := by
  refine List.pairwise_flatMap.2 ⟨fun m _ => ?_, List.pairwise_lt_range.imp ?_⟩
  · refine List.Pairwise.map _ ?_ List.pairwise_lt_range
    intro i j hij
    exact .inr ⟨rfl, Int.ofNat_lt.2 hij⟩
  · intro m k hmk s hs t ht
    obtain ⟨i, -, rfl⟩ := List.mem_map.1 hs
    obtain ⟨j, -, rfl⟩ := List.mem_map.1 ht
    exact .inl (Int.ofNat_lt.2 (by omega))

/-- Every span stands after all spans that precede it. -/
theorem pairwise_spansOf (n : Nat) : (spansOf n).Pairwise Span.Precedes := by
  refine List.pairwise_append.2 ⟨pairwise_shortestSpans n, pairwise_longerSpans n, ?_⟩
  intro s hs t ht
  obtain ⟨i, -, rfl⟩ := mem_shortestSpans.1 hs
  obtain ⟨j, l, hl, -, rfl⟩ := mem_longerSpans.1 ht
  exact .inl (show (1 : Int) < (l : Int) by omega)

section Prefixes

variable {n : Nat} {done rest : List Span} {s : Span}

/-- When the turn comes to a span, all spans that precede it are done. -/
theorem mem_of_precedes (h : spansOf n = done ++ s :: rest) {t : Span} (ht : t ∈ spansOf n)
    (hp : t.Precedes s) : t ∈ done := by
  have hw := pairwise_spansOf n
  rw [h] at ht hw
  have hs := (List.pairwise_cons.1 (List.pairwise_append.1 hw).2.1).1
  rcases List.mem_append.1 ht with ht | ht
  · exact ht
  · rcases List.mem_cons.1 ht with rfl | ht
    · exact absurd rfl hp.ne
    · have := hs t ht
      rcases this with h1 | ⟨h1, h2⟩ <;> rcases hp with h3 | ⟨h3, h4⟩ <;> omega

/-- When the turn comes to a span, it is not done yet. -/
theorem not_mem_of_append (h : spansOf n = done ++ s :: rest) : s ∉ done := by
  intro hs
  have hw := pairwise_spansOf n
  rw [h] at hw
  exact ((List.pairwise_append.1 hw).2.2 s hs s List.mem_cons_self).ne rfl

end Prefixes

end Grammar

end ChartParsing
