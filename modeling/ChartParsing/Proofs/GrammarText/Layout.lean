import ChartParsing.GrammarText.Reader
import ChartParsing.Proofs.Text.CharClasses

/-!
# Layouts of tokens

`Token.spelling` writes a token out. `Laid` says that a text spells tokens one after the other
with a gap in front of each: separators and comments in any mix, but only separators in front
of an arrow; a gap may also end the text. Such a text never goes on with the token in front of
it: a name ends before it, no colon comes next in it, and an arrow comes next only if the first
token is one.
-/

namespace ChartParsing.GrammarText

open ChartParsing.Text

/-- A token as it is written. -/
def Token.spelling : Token → String
  | .startKeyword => "start:"
  | .terminalsKeyword => "terminals:"
  | .nonterminalsKeyword => "nonterminals:"
  | .leftSide s => s
  | .name s => s
  | .terminal value => quote value
  | .arrow => "->"
  | .bar => "|"

/-- Whether the names of a token are names and its terminals stand on one line. -/
def Token.CanBeSpelled : Token → Prop
  | .leftSide s => IsName s.toList
  | .name s => IsName s.toList
  | .terminal value => '\n' ∉ value.toList
  | _ => True

/-- Separators and comments in any mix, each comment with the end of its line. -/
inductive IsGap : List Char → Prop where
  | nil : IsGap []
  | separator {c : Char} {gap : List Char} (hc : isSeparator c = true) (h : IsGap gap) :
    IsGap (c :: gap)
  | comment {body gap : List Char} {e : Char} (hbody : ∀ c ∈ body, c ≠ '\n' ∧ c ≠ '\r')
    (he : e = '\n' ∨ e = '\r') (h : IsGap gap) : IsGap ('%' :: (body ++ e :: gap))

/-- A text spells tokens with a gap in front of each, and ends with a gap. -/
inductive Laid : List Token → List Char → Prop where
  | nil {gap : List Char} (hgap : IsGap gap) : Laid [] gap
  | cons {t : Token} {ts : List Token} {gap cs : List Char} (hgap : IsGap gap) (hne : gap ≠ [])
    (harrow : t = .arrow → ∀ c ∈ gap, isSeparator c = true) (h : Laid ts cs) :
    Laid (t :: ts) (gap ++ (t.spelling.toList ++ cs))

section Gaps

variable {gap cs : List Char} {c : Char}

theorem isBlank_of_isSeparator (h : isSeparator c = true) : isBlank c = true := by
  simp only [isSeparator, Bool.or_eq_true, beq_iff_eq] at h
  rcases h with (((rfl | rfl) | rfl) | rfl) | rfl <;> decide

theorem isGap_of_separators (h : ∀ c ∈ gap, isSeparator c = true) : IsGap gap := by
  induction gap with
  | nil => exact .nil
  | cons c gap ih =>
    obtain ⟨hc, hgap⟩ := List.forall_mem_cons.1 h
    exact .separator hc (ih hgap)

theorem skipFrom_comment {body : List Char} {e : Char}
    (hbody : ∀ c ∈ body, c ≠ '\n' ∧ c ≠ '\r') (he : e = '\n' ∨ e = '\r') :
    skipFrom true (body ++ e :: cs) = skipFrom false cs := by
  induction body with
  | nil => rcases he with rfl | rfl <;> simp [skipFrom]
  | cons c body ih =>
    obtain ⟨hc, hbody⟩ := List.forall_mem_cons.1 hbody
    rw [List.cons_append, ← ih hbody]
    have hin : (!(c == '\n' || c == '\r')) = true := by simp [hc]
    rw [skipFrom, if_pos rfl, hin]

/-- A gap is passed over. -/
theorem skip_gap (h : IsGap gap) : skip (gap ++ cs) = skip cs := by
  unfold skip
  induction h with
  | nil => rfl
  | @separator c gap hc _ ih =>
    have hp : c ≠ '%' := by
      rintro rfl
      cases hc
    simp [skipFrom, hp, hc, ih]
  | comment hbody he _ ih =>
    rw [List.cons_append, List.append_assoc, List.cons_append]
    simp [skipFrom, skipFrom_comment hbody he, ih]

/-- What follows the blanks of a gap is a comment or follows the gap. -/
theorem dropWhile_gap (h : IsGap gap) (cs : List Char) :
    (∃ rest, (gap ++ cs).dropWhile isBlank = '%' :: rest) ∨
      (gap ++ cs).dropWhile isBlank = cs.dropWhile isBlank := by
  induction h with
  | nil => exact .inr rfl
  | separator hc _ ih =>
    rw [List.cons_append, List.dropWhile_cons_of_pos (isBlank_of_isSeparator hc)]
    exact ih
  | comment => exact .inl ⟨_, List.dropWhile_cons_of_neg (by decide)⟩

theorem dropWhile_separators (h : ∀ c ∈ gap, isSeparator c = true) :
    (gap ++ cs).dropWhile isBlank = cs.dropWhile isBlank :=
  List.dropWhile_append_of_pos fun c hc => isBlank_of_isSeparator (h c hc)

theorem isNamePart_eq_false_of_isBlank (h : isBlank c = true) : isNamePart c = false := by
  rw [Bool.eq_false_iff, ne_eq]
  intro hc
  rw [isBlank_eq_false_of_isNamePart hc] at h
  cases h

/-- A gap does not begin with a character of names. -/
theorem IsGap.isNamePart_eq_false (h : IsGap (c :: gap)) : isNamePart c = false := by
  cases h with
  | separator hc => exact isNamePart_eq_false_of_isBlank (isBlank_of_isSeparator hc)
  | comment => decide +kernel

end Gaps

/-- A character that a token can begin with: it is not passed over and is no colon, and only an
arrow begins like an arrow. -/
structure Token.Opens (t : Token) (c : Char) : Prop where
  isBlank : isBlank c = false
  ne_percent : c ≠ '%'
  ne_colon : c ≠ ':'
  eq_arrow : c = '-' → t = .arrow

theorem Token.opens_of_ne {t : Token} {c : Char}
    (h : isBlank c = false ∧ c ≠ '%' ∧ c ≠ ':' ∧ c ≠ '-') : t.Opens c :=
  ⟨h.1, h.2.1, h.2.2.1, fun e => absurd e h.2.2.2⟩

theorem Token.CanBeSpelled.exists_opens {t : Token} (h : t.CanBeSpelled) :
    ∃ c cs, t.spelling.toList = c :: cs ∧ t.Opens c := by
  have hname : ∀ {s : String}, IsName s.toList → ∃ c cs, s.toList = c :: cs ∧ t.Opens c := by
    rintro s ⟨c, cs, hs, hc, -⟩
    have hc := isNamePart_of_isNameStart hc
    exact ⟨c, cs, hs, opens_of_ne ⟨isBlank_eq_false_of_isNamePart hc,
      ne_of_isNamePart hc (by decide +kernel), ne_of_isNamePart hc (by decide +kernel),
      ne_of_isNamePart hc (by decide +kernel)⟩⟩
  cases t with
  | startKeyword => exact ⟨'s', _, rfl, opens_of_ne (by decide)⟩
  | terminalsKeyword => exact ⟨'t', _, rfl, opens_of_ne (by decide)⟩
  | nonterminalsKeyword => exact ⟨'n', _, rfl, opens_of_ne (by decide)⟩
  | leftSide s | name s => exact hname h
  | terminal v => exact ⟨'"', _, String.toList_ofList, opens_of_ne (by decide)⟩
  | arrow => exact ⟨'-', ['>'], rfl, by decide, by decide, by decide, fun _ => rfl⟩
  | bar => exact ⟨'|', _, rfl, opens_of_ne (by decide)⟩

section Laid

variable {ts : List Token} {cs : List Char}

/-- A name ends where a layout begins. -/
theorem Laid.isNamePart_eq_false (h : Laid ts cs) :
    ∀ c rest, cs = c :: rest → isNamePart c = false := by
  cases h with
  | nil hgap =>
    rintro c rest rfl
    exact hgap.isNamePart_eq_false
  | @cons t ts gap cs hgap hne =>
    cases gap with
    | nil => exact absurd rfl hne
    | cons c gap =>
      intro c' rest he
      cases he
      exact hgap.isNamePart_eq_false

/-- What follows the blanks at the front of a layout. -/
theorem Laid.dropWhile_eq (h : Laid ts cs) (hts : ∀ t ∈ ts, t.CanBeSpelled) :
    cs.dropWhile isBlank = [] ∨ (∃ rest, cs.dropWhile isBlank = '%' :: rest) ∨
      ∃ t us rest, ts = t :: us ∧ cs.dropWhile isBlank = t.spelling.toList ++ rest := by
  cases h with
  | nil hgap =>
    rcases dropWhile_gap hgap [] with ⟨rest, hp⟩ | hd
    · exact .inr (.inl ⟨rest, by simpa using hp⟩)
    · exact .inl (by simpa using hd)
  | @cons t ts gap cs hgap =>
    rcases dropWhile_gap hgap (t.spelling.toList ++ cs) with hp | hd
    · exact .inr (.inl hp)
    · obtain ⟨c, rest, hs, hc⟩ := (hts t List.mem_cons_self).exists_opens
      refine .inr (.inr ⟨t, ts, cs, rfl, ?_⟩)
      rw [hd, hs, List.cons_append, List.dropWhile_cons_of_neg (by simp [hc.isBlank])]

/-- No colon comes next in a layout. -/
theorem Laid.dropWhile_ne_colon (h : Laid ts cs) (hts : ∀ t ∈ ts, t.CanBeSpelled)
    (rest : List Char) : cs.dropWhile isBlank ≠ ':' :: rest := by
  rcases h.dropWhile_eq hts with he | ⟨r, he⟩ | ⟨t, us, r, rfl, he⟩
  · simp [he]
  · simp [he]
  · obtain ⟨c, ds, hs, hc⟩ := (hts t List.mem_cons_self).exists_opens
    rw [he, hs]
    intro heq
    exact hc.ne_colon (List.cons.inj heq).1

/-- An arrow comes next in a layout exactly when the first token is an arrow. -/
theorem Laid.startsWithArrow_iff (h : Laid ts cs) (hts : ∀ t ∈ ts, t.CanBeSpelled) :
    startsWithArrow cs = true ↔ ∃ us, ts = .arrow :: us := by
  constructor
  · intro harrow
    unfold startsWithArrow at harrow
    rcases h.dropWhile_eq hts with he | ⟨r, he⟩ | ⟨t, us, r, rfl, he⟩
    · simp [he] at harrow
    · simp [he] at harrow
    · obtain ⟨c, ds, hs, hc⟩ := (hts t List.mem_cons_self).exists_opens
      rw [he, hs, List.cons_append, List.isPrefixOf_cons_cons, Bool.and_eq_true,
        beq_iff_eq] at harrow
      exact ⟨us, by rw [hc.eq_arrow harrow.1.symm]⟩
  · rintro ⟨us, rfl⟩
    cases h with
    | @cons _ _ gap cs hgap hne harrow =>
      rw [startsWithArrow, dropWhile_separators (harrow rfl)]
      rfl

end Laid

end ChartParsing.GrammarText
