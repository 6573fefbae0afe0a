import ChartParsing.Proofs.Grammar.Listing
import ChartParsing.Proofs.GrammarText.Reading

/-!
# A listing lays out its items

Each line of a listing has the tokens of one item, with one blank between them. So a listing
of names that are spelled as names can be read, and the items come back (`items_lines`).
-/

namespace ChartParsing

open Text GrammarText

namespace GrammarText

/-- Tokens on a line, with a blank between any two of them. -/
def lineOf (t : Token) (ts : List Token) : String :=
  t.spelling ++ " " ++ " ".intercalate (ts.map Token.spelling)

/-- Tokens with a blank in front of each. -/
def spaced (ts : List Token) : List Char :=
  ts.flatMap fun t => ' ' :: t.spelling.toList

/-- What stands at the end of a line: a blank if there is but one token on it. -/
def lineGap (ts : List Token) : List Char :=
  if ts = [] then [' '] else []

theorem toList_lineOf (t : Token) (ts : List Token) :
    (lineOf t ts).toList = t.spelling.toList ++ (spaced ts ++ lineGap ts) := by
  have hrest : ' ' :: [' '].intercalate (ts.map fun t => t.spelling.toList) =
      spaced ts ++ lineGap ts := by
    cases ts with
    | nil => rfl
    | cons u us =>
      simp [singleton_intercalate_cons, spaced, lineGap, List.flatMap_map]
  rw [← hrest]
  simp [lineOf, String.toList_intercalate, Function.comp_def]

theorem isGap_lineGap (ts : List Token) : ∀ c ∈ lineGap ts, isSeparator c = true := by
  unfold lineGap
  split <;> simp [isSeparator]

theorem laid_spaced (ts : List Token) {us : List Token} {cs : List Char} (h : Laid us cs) :
    Laid (ts ++ us) (spaced ts ++ cs) := by
  induction ts with
  | nil => exact h
  | cons t ts ih =>
    have hblank : ∀ c ∈ [' '], isSeparator c = true := by simp [isSeparator]
    have := Laid.cons (t := t) (isGap_of_separators hblank) (by simp) (fun _ => hblank) ih
    simpa [spaced] using this

/-- Lines lay their tokens out, whatever blanks stand at the end of the line in front. -/
theorem laid_lines (lines : List (Token × List Token)) {gap : List Char}
    (hgap : ∀ c ∈ gap, isSeparator c = true) :
    Laid (lines.flatMap fun p => p.1 :: p.2)
      (gap ++ lines.flatMap fun p => '\n' :: (lineOf p.1 p.2).toList) := by
  induction lines generalizing gap with
  | nil => simpa using Laid.nil (isGap_of_separators hgap)
  | cons p lines ih =>
    have hline : ∀ c ∈ gap ++ ['\n'], isSeparator c = true := by
      rw [List.forall_mem_append]
      exact ⟨hgap, by simp [isSeparator]⟩
    have := Laid.cons (t := p.1) (isGap_of_separators hline) (by simp) (fun _ => hline)
      (laid_spaced p.2 (ih (isGap_lineGap p.2)))
    simpa [toList_lineOf] using this

/-- Lines under each other lay their tokens out. -/
theorem laidOut_lines (p : Token × List Token) (lines : List (Token × List Token)) :
    LaidOut ((p :: lines).flatMap fun p => p.1 :: p.2)
      ("\n".intercalate ((p :: lines).map fun p => lineOf p.1 p.2)).toList := by
  refine ⟨[], _, .nil, laid_spaced p.2 (laid_lines lines (isGap_lineGap p.2)), ?_⟩
  simp [String.toList_intercalate, singleton_intercalate_cons, toList_lineOf,
    List.flatMap_map]

end GrammarText

namespace Grammar

variable {g : Grammar String}

/-- A symbol as it stands on the right side of a production. -/
def rightSymbol (g : Grammar String) (s : String) : RightSymbol :=
  if g.isTerminal s then .terminal s else .nonterminal s

/-- The items of a listing. -/
def items (g : Grammar String) : List Item :=
  .start g.start :: .terminals g.terminals :: .nonterminals g.nonterminals ::
    g.rules.map fun r => .production r.left [r.right.map g.rightSymbol]

/-- Sound rules over names that can be written in grammar text. -/
structure CanBeWritten (g : Grammar String) : Prop where
  isSound : g.IsSound
  isName : ∀ s ∈ g.nonterminals, IsName s.toList
  not_mem : ∀ s ∈ g.terminals, '\n' ∉ s.toList

/-- The tokens of the lines of a listing. -/
def tokenLines (g : Grammar String) : List (Token × List Token) :=
  (.startKeyword, [.name g.start]) :: (.terminalsKeyword, g.terminals.map .terminal) ::
    (.nonterminalsKeyword, g.nonterminals.map .name) ::
    g.rules.map fun r => (.leftSide r.left, .arrow :: r.right.map fun s => (g.rightSymbol s).token)

theorem tokens_items (g : Grammar String) :
    g.items.flatMap Item.tokens = g.tokenLines.flatMap fun p => p.1 :: p.2 := by
  simp [items, tokenLines, Item.tokens, alternativeTokens, List.flatMap_map, Function.comp_def]

theorem spelling_rightSymbol (s : String) :
    (g.rightSymbol s).token.spelling = if g.isTerminal s then quote s else s := by
  unfold rightSymbol
  split <;> rfl

theorem ruleLine_eq {r : Rule String} (hr : r.right ≠ []) : g.ruleLine r =
    lineOf (.leftSide r.left) (.arrow :: r.right.map fun s => (g.rightSymbol s).token) := by
  obtain ⟨left, right⟩ := r
  cases right with
  | nil => exact absurd rfl hr
  | cons s ss =>
    apply String.toList_inj.1
    simp only [ruleLine, lineOf, List.map_cons, List.map_map, Function.comp_def,
      spelling_rightSymbol]
    simp [Token.spelling, String.toList_intercalate]

theorem lines_eq (h : g.IsSound) : g.lines = g.tokenLines.map fun p => lineOf p.1 p.2 := by
  have hrules : g.rules.map g.ruleLine = g.rules.map fun r =>
      lineOf (.leftSide r.left) (.arrow :: r.right.map fun s => (g.rightSymbol s).token) := by
    refine List.map_congr_left fun r hr => ruleLine_eq ?_
    rcases h.right_of_mem_rules hr with ⟨t, -, he⟩ | ⟨b, -, c, -, he⟩
    · simp [he]
    · simp [he]
  rw [lines, hrules]
  simp [tokenLines, lineOf, Token.spelling, Function.comp_def]

/-- The symbols of a rule that can be written can be spelled. -/
theorem CanBeWritten.rightSymbol (h : g.CanBeWritten) {r : Rule String} (hr : r ∈ g.rules) :
    r.right ≠ [] ∧ ∀ s ∈ r.right, (g.rightSymbol s).token.CanBeSpelled := by
  have hterminal : ∀ s ∈ g.terminals, (g.rightSymbol s).token.CanBeSpelled := by
    intro s hs
    rw [Grammar.rightSymbol, isTerminal, if_pos (decide_eq_true hs)]
    exact h.not_mem s hs
  have hnonterminal : ∀ s ∈ g.nonterminals, (g.rightSymbol s).token.CanBeSpelled := by
    intro s hs
    have hn : s ∉ g.terminals := fun ht => h.isSound.disjoint ht hs
    rw [Grammar.rightSymbol, isTerminal, if_neg (by simpa using hn)]
    exact h.isName s hs
  rcases h.isSound.right_of_mem_rules hr with ⟨t, ht, he⟩ | ⟨b, hb, c, hc, he⟩
  · rw [he]
    exact ⟨by simp, by simpa using hterminal t ht⟩
  · rw [he]
    exact ⟨by simp, by simpa using ⟨hnonterminal b hb, hnonterminal c hc⟩⟩

theorem CanBeWritten.items (h : g.CanBeWritten) : ∀ item ∈ g.items, item.CanBeWritten := by
  simp only [Grammar.items, List.forall_mem_cons, List.forall_mem_map]
  refine ⟨h.isName _ h.isSound.start_mem, h.not_mem, h.isName, fun r hr => ?_⟩
  obtain ⟨hne, hspelled⟩ := h.rightSymbol hr
  refine ⟨h.isName _ (mem_rules.1 hr).1, by simp, ?_⟩
  rw [List.forall_mem_singleton, List.forall_mem_map]
  exact ⟨by simpa using hne, hspelled⟩

/-- The items of a listing are read from it. -/
theorem items_lines (h : g.CanBeWritten) :
    GrammarText.items ("\n".intercalate g.lines) = .ok g.items := by
  apply items_of_layout h.items
  rw [tokens_items, lines_eq h.isSound]
  exact laidOut_lines _ _

end Grammar

end ChartParsing
