import ChartParsing.Proofs.GrammarText.Layout

/-!
# What a reader passes over

A reader passes over separators and comments, and over nothing else: in front of what it goes
on with stands a gap (`exists_gap`), and in front of a sign a gap is passed over as a whole, by
which it can be told whether a text is a gap (`isGap_iff`). Where the text ends, its last
comment may have no line end.
-/

namespace ChartParsing.GrammarText

/-- A gap at the end of a text, where the last comment may have no line end after it. -/
inductive IsLastGap : List Char → Prop where
  | gap {gap : List Char} (h : IsGap gap) : IsLastGap gap
  | comment {gap body : List Char} (h : IsGap gap) (hbody : ∀ c ∈ body, c ≠ '\n' ∧ c ≠ '\r') :
    IsLastGap (gap ++ '%' :: body)

section Gaps

variable {gap gap' cs : List Char}

theorem IsGap.append (h : IsGap gap) (h' : IsGap gap') : IsGap (gap ++ gap') := by
  induction h with
  | nil => exact h'
  | separator hc _ ih => exact .separator hc ih
  | comment hbody he _ ih =>
    rw [List.cons_append, List.append_assoc, List.cons_append]
    exact .comment hbody he ih

theorem IsGap.append_last (h : IsGap gap) (h' : IsLastGap gap') : IsLastGap (gap ++ gap') := by
  cases h' with
  | gap h' => exact .gap (h.append h')
  | comment h' hbody =>
    rw [← List.append_assoc]
    exact .comment (h.append h') hbody

/-- A comment reaches to the end of its line, or to the end of the text. -/
theorem skipFrom_true (cs : List Char) :
    ((∀ c ∈ cs, c ≠ '\n' ∧ c ≠ '\r') ∧ skipFrom true cs = []) ∨
      ∃ body e rest, (∀ c ∈ body, c ≠ '\n' ∧ c ≠ '\r') ∧ (e = '\n' ∨ e = '\r') ∧
        cs = body ++ e :: rest ∧ skipFrom true cs = skip rest := by
  induction cs with
  | nil => exact .inl ⟨by simp, rfl⟩
  | cons c cs ih =>
    by_cases hc : c = '\n' ∨ c = '\r'
    · have hin : (!(c == '\n' || c == '\r')) = false := by rcases hc with rfl | rfl <;> rfl
      exact .inr ⟨[], c, cs, by simp, hc, rfl, by rw [skipFrom, if_pos rfl, hin, skip]⟩
    · obtain ⟨hn, hr⟩ := not_or.1 hc
      have hin : (!(c == '\n' || c == '\r')) = true := by simp [hn, hr]
      have hskip : skipFrom true (c :: cs) = skipFrom true cs := by rw [skipFrom, if_pos rfl, hin]
      rw [hskip]
      rcases ih with ⟨hbody, hnil⟩ | ⟨body, e, rest, hbody, he, rfl, hrest⟩
      · exact .inl ⟨List.forall_mem_cons.2 ⟨⟨hn, hr⟩, hbody⟩, hnil⟩
      · exact .inr ⟨c :: body, e, rest, List.forall_mem_cons.2 ⟨⟨hn, hr⟩, hbody⟩, he, rfl, hrest⟩

/-- What is passed over is a gap, which ends the text if nothing follows. -/
theorem exists_gap (cs : List Char) :
    ∃ gap, cs = gap ++ skip cs ∧ (IsGap gap ∨ skip cs = [] ∧ IsLastGap gap) := by
  induction hn : cs.length using Nat.strongRecOn generalizing cs with
  | _ n ih =>
    subst hn
    -- a first piece is passed over, and the rest is shorter
    have further : ∀ piece rest, IsGap piece → piece ≠ [] → cs = piece ++ rest →
        skip cs = skip rest → ∃ gap, cs = gap ++ skip cs ∧
          (IsGap gap ∨ skip cs = [] ∧ IsLastGap gap) := by
      rintro piece rest hpiece hne rfl hskip
      have hlt : rest.length < (piece ++ rest).length := by
        have := List.length_pos_iff.2 hne
        rw [List.length_append]
        omega
      obtain ⟨gap, hrest, hgap⟩ := ih _ hlt rest rfl
      refine ⟨piece ++ gap, ?_, ?_⟩
      · rw [hskip, List.append_assoc, ← hrest]
      · rw [hskip]
        exact hgap.imp hpiece.append fun h => ⟨h.1, hpiece.append_last h.2⟩
    cases cs with
    | nil => exact ⟨[], rfl, .inl .nil⟩
    | cons c cs =>
      by_cases hp : c = '%'
      · subst hp
        have hskip : skip ('%' :: cs) = skipFrom true cs := rfl
        rcases skipFrom_true cs with ⟨hbody, hnil⟩ | ⟨body, e, rest, hbody, he, rfl, hrest⟩
        · refine ⟨'%' :: cs, by rw [hskip, hnil, List.append_nil], .inr ⟨hskip.trans hnil, ?_⟩⟩
          exact .comment .nil hbody
        · exact further ('%' :: (body ++ [e])) rest (.comment hbody he .nil) (by simp) (by simp)
            (hskip.trans hrest)
      · by_cases hs : isSeparator c = true
        · exact further [c] cs (.separator hs .nil) (by simp) rfl (by simp [skip, skipFrom, hp, hs])
        · exact ⟨[], by simp [skip, skipFrom, hp, hs], .inl .nil⟩

/-- A gap is what is passed over in front of a sign. -/
theorem isGap_iff : IsGap gap ↔ skip (gap ++ ['|']) = ['|'] := by
  refine ⟨fun h => skip_gap h, fun h => ?_⟩
  obtain ⟨front, hfront, hgap⟩ := exists_gap (gap ++ ['|'])
  rw [h] at hfront hgap
  rw [List.append_cancel_right hfront]
  exact hgap.resolve_right fun hlast => List.cons_ne_nil _ _ hlast.1

instance : DecidablePred IsGap := fun _ => decidable_of_iff _ isGap_iff.symm

end Gaps

end ChartParsing.GrammarText
