import ChartParsing.Text.CharClasses

/-!
# Character classes that do not meet

A character of a name is neither blank nor a sign of the notation, so a name ends where a
blank or a sign begins. That two classes do not meet is read off their ranges
(`inRanges_eq_false`).
-/

namespace ChartParsing.Text

variable {c : Char} {ranges ranges' : List (Nat × Nat)}

/-- A character of one class is not in another one whose ranges lie apart. -/
theorem inRanges_eq_false (hapart : ∀ r ∈ ranges, ∀ s ∈ ranges', r.2 ≤ s.1 ∨ s.2 ≤ r.1)
    (hc : inRanges ranges c = true) : inRanges ranges' c = false := by
  rw [Bool.eq_false_iff, ne_eq, inRanges_iff]
  rintro ⟨s, hs, hs1, hs2⟩
  obtain ⟨r, hr, hr1, hr2⟩ := inRanges_iff.1 hc
  rcases hapart r hr s hs with h | h
  · omega
  · omega

theorem isNamePart_iff :
    isNamePart c = true ↔ c = '_' ∨ inRanges alphanumericRanges c = true ∨ c = '\'' := by
  simp [isNamePart, isWordChar, or_assoc]

/-- No character of a name is blank. -/
theorem isBlank_eq_false_of_isNamePart (h : isNamePart c = true) : isBlank c = false := by
  rcases isNamePart_iff.1 h with rfl | h | rfl
  · decide
  · exact inRanges_eq_false (by decide +kernel) h
  · decide

/-- A character outside the letters and numbers that is no other character of names either. -/
theorem ne_of_isNamePart {s : Char} (h : isNamePart c = true) (hs : isNamePart s = false) :
    c ≠ s := by
  rintro rfl
  rw [h] at hs
  cases hs

/-- The text of a name: a character that a name can begin with, and others that it can go on
with. -/
def IsName (cs : List Char) : Prop :=
  ∃ c rest, cs = c :: rest ∧ isNameStart c = true ∧ ∀ x ∈ rest, isNamePart x = true

theorem IsName.isNamePart {cs : List Char} (h : IsName cs) : ∀ x ∈ cs, isNamePart x = true := by
  obtain ⟨c, rest, rfl, hc, hrest⟩ := h
  rw [List.forall_mem_cons]
  exact ⟨isNamePart_of_isNameStart hc, hrest⟩

end ChartParsing.Text
