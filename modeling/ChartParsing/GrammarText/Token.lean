import ChartParsing.Text.CharClasses
import ChartParsing.Text.Quoted

/-!
# Tokens of grammar text

The tokens are keywords with their colons, names, quoted terminals, arrows and bars; a name
that an arrow follows can also be read as the left side of a rule. A scanner takes one kind
of token off the front of a text. `Token.scanners` lists them by precedence, and every one
of them leaves a shorter text (`length_lt_of_scan`).
-/

namespace ChartParsing.GrammarText

open ChartParsing.Text

/-- A token, with the names and values that items are made of. -/
inductive Token where
  | startKeyword
  | terminalsKeyword
  | nonterminalsKeyword
  /-- A name that an arrow follows. -/
  | leftSide (name : String)
  | name (name : String)
  /-- A quoted terminal, by its value. -/
  | terminal (value : String)
  | arrow
  | bar
deriving DecidableEq, Repr

/-- What follows a word, blanks and a colon at the front of a text. -/
def scanKeyword (word cs : List Char) : Option (List Char) :=
  if word.isPrefixOf cs then
    match (cs.drop word.length).dropWhile isBlank with
    | ':' :: rest => some rest
    | _ => none
  else none

/-- The longest name at the front of a text, and what follows it. -/
def scanName : List Char → Option (String × List Char)
  | c :: rest =>
    if isNameStart c then
      some (String.ofList (c :: rest.takeWhile isNamePart), rest.dropWhile isNamePart)
    else none
  | [] => none

/-- Whether blanks and an arrow stand at the front of a text. -/
def startsWithArrow (cs : List Char) : Bool :=
  ['-', '>'].isPrefixOf (cs.dropWhile isBlank)

/-- What a scanner makes of a text: a token and what follows it. -/
abbrev Scanner := List Char → Option (Token × List Char)

/-- Takes a keyword with its colon. -/
def keywordScanner (word : String) (token : Token) : Scanner := fun cs =>
  (scanKeyword word.toList cs).map (token, ·)

/-- Takes a name that an arrow follows. -/
def leftSideScanner : Scanner := fun cs =>
  match scanName cs with
  | some (name, rest) => if startsWithArrow rest then some (.leftSide name, rest) else none
  | none => none

/-- Takes a name. -/
def nameScanner : Scanner := fun cs =>
  (scanName cs).map fun r => (.name r.1, r.2)

/-- Takes a quoted terminal. -/
def terminalScanner : Scanner := fun cs =>
  (scanQuoted cs).map fun r => (.terminal (String.ofList (unescape r.1)), r.2)

/-- Takes an arrow. -/
def arrowScanner : Scanner
  | '-' :: '>' :: rest => some (.arrow, rest)
  | _ => none

/-- Takes a bar. -/
def barScanner : Scanner
  | '|' :: rest => some (.bar, rest)
  | _ => none

/-- All scanners: keywords come first, and the left side of a rule before a mere name. -/
def Token.scanners : List Scanner :=
  [keywordScanner "start" .startKeyword,
    keywordScanner "terminals" .terminalsKeyword,
    keywordScanner "nonterminals" .nonterminalsKeyword,
    leftSideScanner, nameScanner, terminalScanner, arrowScanner, barScanner]

theorem length_dropWhile_le (p : Char → Bool) (cs : List Char) :
    (cs.dropWhile p).length ≤ cs.length :=
  (List.dropWhile_sublist p).length_le

theorem length_lt_of_scanKeyword {word cs rest : List Char}
    (h : scanKeyword word cs = some rest) : rest.length < cs.length := by
  unfold scanKeyword at h
  split at h
  · split at h
    · rename_i r hr
      cases h
      have h1 := length_dropWhile_le isBlank (cs.drop word.length)
      rw [hr, List.length_drop] at h1
      simp only [List.length_cons] at h1
      omega
    · cases h
  · cases h

theorem length_lt_of_scanName {cs rest : List Char} {name : String}
    (h : scanName cs = some (name, rest)) : rest.length < cs.length := by
  unfold scanName at h
  split at h
  · split at h
    · cases h
      rename_i c r _
      have := length_dropWhile_le isNamePart r
      simp only [List.length_cons]
      omega
    · cases h
  · cases h

theorem length_lt_of_scanBody {escaped : Bool} {cs body rest : List Char}
    (h : scanBody escaped cs = some (body, rest)) : rest.length < cs.length := by
  induction cs generalizing escaped body with
  | nil => cases h
  | cons c cs ih =>
    unfold scanBody at h
    split at h
    · cases h
    · split at h
      · cases h
        simp
      · obtain ⟨r, hr, he⟩ := Option.map_eq_some_iff.1 h
        cases he
        have := ih hr
        simp only [List.length_cons]
        omega

theorem length_lt_of_scanQuoted {cs body rest : List Char}
    (h : scanQuoted cs = some (body, rest)) : rest.length < cs.length := by
  unfold scanQuoted at h
  split at h
  · have := length_lt_of_scanBody h
    simp only [List.length_cons]
    omega
  · cases h

/-- Every scanner takes something off the text. -/
theorem length_lt_of_scan {scan : Scanner} (hs : scan ∈ Token.scanners) {cs rest : List Char}
    {token : Token} (h : scan cs = some (token, rest)) : rest.length < cs.length := by
  have keyword : ∀ {word : String} {t : Token},
      keywordScanner word t cs = some (token, rest) → rest.length < cs.length := by
    intro word t h
    obtain ⟨r, hr, he⟩ := Option.map_eq_some_iff.1 h
    cases he
    exact length_lt_of_scanKeyword hr
  simp only [Token.scanners, List.mem_cons, List.not_mem_nil, or_false] at hs
  rcases hs with rfl | rfl | rfl | rfl | rfl | rfl | rfl | rfl
  · exact keyword h
  · exact keyword h
  · exact keyword h
  · unfold leftSideScanner at h
    split at h
    · rename_i hn
      split at h
      · cases h
        exact length_lt_of_scanName hn
      · cases h
    · cases h
  · obtain ⟨r, hr, he⟩ := Option.map_eq_some_iff.1 h
    cases he
    exact length_lt_of_scanName hr
  · obtain ⟨r, hr, he⟩ := Option.map_eq_some_iff.1 h
    cases he
    exact length_lt_of_scanQuoted hr
  · unfold arrowScanner at h
    split at h
    · cases h
      simp only [List.length_cons]
      omega
    · cases h
  · unfold barScanner at h
    split at h
    · cases h
      simp
    · cases h

end ChartParsing.GrammarText
