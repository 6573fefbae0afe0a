import ChartParsing.Text.Quoted

/-!
# What stands between the quotes of a terminal

`IsQuotedBody` gives the form of what stands between the quotes of a terminal: characters of
one line, where each double quote and each backslash that is meant as such has a backslash
before it. The scanner takes this form and nothing else off the front of a text, up to the
quote that closes it (`isQuotedBody_of_scanBody`).
-/

namespace ChartParsing.Text

/-- Characters of one line, each of them plain or behind a backslash. -/
inductive IsQuotedBody : List Char → Prop where
  | nil : IsQuotedBody []
  | plain {c : Char} {body : List Char} (hquote : c ≠ '"') (hbackslash : c ≠ '\\')
    (hline : c ≠ '\n') (h : IsQuotedBody body) : IsQuotedBody (c :: body)
  | escaped {c : Char} {body : List Char} (hline : c ≠ '\n') (h : IsQuotedBody body) :
    IsQuotedBody ('\\' :: c :: body)

variable {escaped : Bool} {cs body rest : List Char} {c : Char}

theorem scanBody_cons_eq_some_iff : scanBody escaped (c :: cs) = some (body, rest) ↔
    c ≠ '\n' ∧ (c = '"' ∧ escaped = false ∧ body = [] ∧ rest = cs ∨
      ¬(c = '"' ∧ escaped = false) ∧ ∃ more, body = c :: more ∧
        scanBody (decide (c = '\\') && !escaped) cs = some (more, rest)) := by
  rw [scanBody]
  by_cases hline : c = '\n'
  · simp [hline]
  · by_cases hquote : c = '"' ∧ escaped = false
    · simp [hquote, eq_comm]
    · rw [if_neg hline, if_neg hquote, Option.map_eq_some_iff]
      constructor
      · rintro ⟨⟨more, rest'⟩, hscan, he⟩
        cases he
        exact ⟨hline, .inr ⟨hquote, more, rfl, hscan⟩⟩
      · rintro ⟨-, ⟨hc, he, -⟩ | ⟨-, more, rfl, hscan⟩⟩
        · exact absurd ⟨hc, he⟩ hquote
        · exact ⟨_, hscan, rfl⟩

theorem scanBody_plain (hquote : c ≠ '"') (hbackslash : c ≠ '\\') (hline : c ≠ '\n') :
    scanBody false (c :: cs) = (scanBody false cs).map fun r => (c :: r.1, r.2) := by
  simp [scanBody, hquote, hbackslash, hline]

/-- A backslash and the character that it escapes are scanned together. -/
theorem scanBody_escaped (hline : c ≠ '\n') : scanBody false ('\\' :: c :: cs) =
    (scanBody false cs).map fun r => ('\\' :: c :: r.1, r.2) := by
  simp [scanBody, hline, Option.map_map, Function.comp_def]

/-- The body of a terminal ends at its closing quote. -/
theorem scanBody_escapeQuoted (h : '\n' ∉ cs) (rest : List Char) :
    scanBody false (escapeQuoted cs ++ '"' :: rest) = some (escapeQuoted cs, rest) := by
  induction cs with
  | nil => rfl
  | cons c cs ih =>
    rw [List.mem_cons, not_or] at h
    obtain ⟨hline, hcs⟩ := h
    have ih := ih hcs
    by_cases he : c = '"' ∨ c = '\\'
    · rw [escapeQuoted, if_pos he, List.cons_append, List.cons_append,
        scanBody_escaped (Ne.symm hline), ih]
      rfl
    · obtain ⟨hquote, hbackslash⟩ := not_or.1 he
      rw [escapeQuoted, if_neg he, List.cons_append,
        scanBody_plain hquote hbackslash (Ne.symm hline), ih]
      rfl

/-- A quoted terminal is scanned as a whole. -/
theorem scanQuoted_quoteChars (h : '\n' ∉ cs) (rest : List Char) :
    scanQuoted (quoteChars cs ++ rest) = some (escapeQuoted cs, rest) := by
  rw [quoteChars, List.append_assoc, List.cons_append, scanQuoted]
  exact scanBody_escapeQuoted h rest

/-- The body that is scanned, its closing quote and the rest make up the text. -/
theorem eq_append_of_scanBody (h : scanBody escaped cs = some (body, rest)) :
    cs = body ++ '"' :: rest := by
  induction cs generalizing escaped body with
  | nil => cases h
  | cons c cs ih =>
    obtain ⟨-, ⟨rfl, -, rfl, rfl⟩ | ⟨-, more, rfl, hscan⟩⟩ := scanBody_cons_eq_some_iff.1 h
    · rfl
    · rw [ih hscan, List.cons_append]

/-- A body that is scanned has the form of one; the backslash that the scanner may stand behind
belongs to it. -/
theorem isQuotedBody_of_scanBody (h : scanBody escaped cs = some (body, rest)) :
    IsQuotedBody (if escaped then '\\' :: body else body) := by
  induction cs generalizing escaped body with
  | nil => cases h
  | cons c cs ih =>
    obtain ⟨hline, ⟨-, rfl, rfl, -⟩ | ⟨hquote, more, rfl, hscan⟩⟩ := scanBody_cons_eq_some_iff.1 h
    · exact .nil
    · have hmore := ih hscan
      cases escaped with
      | true =>
        simp only [Bool.not_true, Bool.and_false, Bool.false_eq_true, if_false] at hmore
        exact .escaped hline hmore
      | false =>
        by_cases hc : c = '\\'
        · subst hc
          simpa using hmore
        · have hquote : c ≠ '"' := fun e => hquote ⟨e, rfl⟩
          simp only [hc, decide_false, Bool.false_and, Bool.false_eq_true, if_false] at hmore
          exact .plain hquote hc hline hmore

/-- A quoted terminal that is scanned is the text up to the rest. -/
theorem eq_append_of_scanQuoted (h : scanQuoted cs = some (body, rest)) :
    cs = '"' :: body ++ ['"'] ++ rest ∧ IsQuotedBody body := by
  unfold scanQuoted at h
  split at h
  · rw [eq_append_of_scanBody h]
    exact ⟨by simp, isQuotedBody_of_scanBody h⟩
  · cases h

theorem IsQuotedBody.newline_not_mem (h : IsQuotedBody body) : '\n' ∉ body := by
  induction h with
  | nil => exact List.not_mem_nil
  | plain _ _ hline _ ih => exact List.not_mem_cons_of_ne_of_not_mem hline.symm ih
  | escaped hline _ ih =>
    exact List.not_mem_cons_of_ne_of_not_mem (by decide)
      (List.not_mem_cons_of_ne_of_not_mem hline.symm ih)

/-- Undoing escapes leaves characters out and adds none. -/
theorem unescape_subset (cs : List Char) : unescape cs ⊆ cs := by
  fun_induction unescape cs with
  | case1 rest ih => exact List.cons_subset_cons _ (List.cons_subset_cons _ ih)
  | case2 c rest hc ih => exact List.subset_cons_of_subset _ (List.cons_subset_cons _ ih)
  | case3 c rest hc ih => exact List.cons_subset_cons _ ih
  | case4 => exact List.Subset.refl _

end ChartParsing.Text
