import ChartParsing.Proofs.GrammarText.Gaps
import ChartParsing.Proofs.GrammarText.Reading

/-!
# Every layout is read

A layout is given here as data: the tokens, each with the characters that follow it up to the
next one. However the tokens of some items are spaced, these items are what is read
(`items_of_spacing`), even where a name of the grammar is a keyword or the next left side.
-/

namespace ChartParsing.GrammarText

open ChartParsing.Text

/-- Whether tokens stand apart, each followed by a gap: nothing but separators stands in front
of an arrow, and only after the last token can there be nothing at all. -/
def AreSpaced : List (Token × List Char) → Prop
  | [] => True
  | [(_, gap)] => IsGap gap
  | (_, gap) :: (t, gap') :: rest =>
    IsGap gap ∧ gap ≠ [] ∧ (t = .arrow → ∀ c ∈ gap, isSeparator c = true) ∧
      AreSpaced ((t, gap') :: rest)

/-- The characters of tokens and of what follows each. -/
def spacedText (spaced : List (Token × List Char)) : List Char :=
  spaced.flatMap fun p => p.1.spelling.toList ++ p.2

theorem AreSpaced.laid {t : Token} {gap : List Char} {rest : List (Token × List Char)}
    (h : AreSpaced ((t, gap) :: rest)) : Laid (rest.map Prod.fst) (gap ++ spacedText rest) := by
  induction rest generalizing t gap with
  | nil =>
    rw [spacedText, List.flatMap_nil, List.append_nil]
    exact .nil h
  | cons p rest ih =>
    obtain ⟨hgap, hne, harrow, hrest⟩ := h
    rw [spacedText, List.flatMap_cons, List.append_assoc]
    exact .cons hgap hne harrow (ih hrest)

theorem AreSpaced.laidOut {front : List Char} {spaced : List (Token × List Char)}
    (hfront : IsGap front) (h : AreSpaced spaced) :
    LaidOut (spaced.map Prod.fst) (front ++ spacedText spaced) := by
  cases spaced with
  | nil =>
    rw [spacedText, List.flatMap_nil, List.append_nil]
    exact hfront
  | cons p rest =>
    refine ⟨front, p.2 ++ spacedText rest, hfront, h.laid, ?_⟩
    rw [spacedText, List.flatMap_cons, List.append_assoc, ← spacedText]

/-- Items that can be written are read from every text that spells their tokens, with a gap in
front of the first and after each. -/
theorem items_of_spacing {items : List Item} (hitems : ∀ item ∈ items, item.CanBeWritten)
    {front : List Char} {spaced : List (Token × List Char)} (hfront : IsGap front)
    (hspaced : AreSpaced spaced) (htokens : spaced.map Prod.fst = items.flatMap Item.tokens)
    {source : String} (hsource : source.toList = front ++ spacedText spaced) :
    GrammarText.items source = .ok items := by
  apply items_of_layout hitems
  rw [hsource, ← htokens]
  exact hspaced.laidOut hfront

/-- Items with keywords for names and signs of the notation for terminals. -/
def puzzling : List Item :=
  [.terminals ["%"],
    .production "start" [[.nonterminal "terminals", .nonterminal "start"], [.terminal "\\"]],
    .production "terminals" [[.terminal "->"]],
    .start "start"]

/-- The tokens of `puzzling`, with white space of all kinds and comments after them. -/
def puzzlingSpaced : List (Token × List Char) :=
  [(.terminalsKeyword, ['\t']), (.terminal "%", ['%', '"', '\n']),
    (.leftSide "start", ['\r', '\n']), (.arrow, [' ']), (.name "terminals", ['\x0c']),
    (.name "start", ['%', '-', '>', '\r']), (.bar, [' ']), (.terminal "\\", ['\n']),
    (.leftSide "terminals", [' ']), (.arrow, ['%', '\n', '%', '\n']), (.terminal "->", [' ']),
    (.startKeyword, ['\n']), (.name "start", ['%', ':', '\n'])]

/-- The text of `puzzlingSpaced` behind a comment. -/
def puzzlingText : String :=
  "%:\nterminals:\t\"%\"%\"\nstart\r\n-> terminals\x0cstart%->\r| \"\\\\\"\n" ++
    "terminals ->%\n%\n\"->\" start:\nstart%:\n"

theorem puzzling_read : (∀ item ∈ puzzling, item.CanBeWritten) ∧ AreSpaced puzzlingSpaced ∧
    GrammarText.items puzzlingText = .ok puzzling := by
  have hstart : IsName ['s', 't', 'a', 'r', 't'] :=
    ⟨'s', _, rfl, by decide +kernel, List.all_eq_true.1 (by decide +kernel)⟩
  have hterminals : IsName ['t', 'e', 'r', 'm', 'i', 'n', 'a', 'l', 's'] :=
    ⟨'t', _, rfl, by decide +kernel, List.all_eq_true.1 (by decide +kernel)⟩
  have hitems : ∀ item ∈ puzzling, item.CanBeWritten := by
    simpa [puzzling, Item.CanBeWritten, RightSymbol.token, Token.CanBeSpelled] using
      ⟨hstart, hterminals, hstart⟩
  have hspaced : AreSpaced puzzlingSpaced := by
    simp only [AreSpaced, puzzlingSpaced, isGap_iff]
    simp [skip, skipFrom, isSeparator]
  have hfront : IsGap ['%', ':', '\n'] := by decide +kernel
  exact ⟨hitems, hspaced, items_of_spacing hitems hfront hspaced rfl rfl⟩

end ChartParsing.GrammarText
