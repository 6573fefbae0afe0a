/-!
# Terminals between double quotes

In grammar text a terminal stands between double quotes, with a backslash before each
double quote and each backslash of it. `quoteChars` writes that form, `unescape` undoes the
escapes, and `scanQuoted` takes a quoted literal off the front of a text: it ends on the
line it begins on, at the first double quote that no backslash escapes.
-/

namespace ChartParsing.Text

/-- A terminal's characters with their escapes. -/
def escapeQuoted : List Char → List Char
  | [] => []
  | c :: rest =>
    if c = '"' ∨ c = '\\' then '\\' :: c :: escapeQuoted rest else c :: escapeQuoted rest

/-- A terminal between double quotes. -/
def quoteChars (cs : List Char) : List Char :=
  '"' :: escapeQuoted cs ++ ['"']

/-- A terminal between double quotes. -/
def quote (s : String) : String :=
  String.ofList (quoteChars s.toList)

/-- Each backslash that another character of its line follows gives way to that character. -/
def unescape : List Char → List Char
  | '\\' :: c :: rest =>
    if c = '\n' then '\\' :: c :: unescape rest else c :: unescape rest
  | c :: rest => c :: unescape rest
  | [] => []

/-- The terminal that a quoted literal stands for. -/
def unquote (literal : String) : String :=
  String.ofList (unescape (literal.toList.drop 1).dropLast)

/-- The body of a literal up to its closing quote, and what follows that quote, if the line
has one. A character is escaped when an odd number of backslashes stands right before it. -/
def scanBody (escaped : Bool) : List Char → Option (List Char × List Char)
  | [] => none
  | c :: rest =>
    if c = '\n' then none
    else if c = '"' ∧ escaped = false then some ([], rest)
    else (scanBody (decide (c = '\\') && !escaped) rest).map fun r => (c :: r.1, r.2)

/-- The body of the quoted literal at the front of a text, and what follows the literal. -/
def scanQuoted : List Char → Option (List Char × List Char)
  | '"' :: rest => scanBody false rest
  | _ => none

theorem unescape_escapeQuoted (cs : List Char) : unescape (escapeQuoted cs) = cs := by
  induction cs with
  | nil => rfl
  | cons c rest ih =>
    by_cases h : c = '"' ∨ c = '\\'
    · have hn : c ≠ '\n' := by rcases h with rfl | rfl <;> decide
      simp [escapeQuoted, h, unescape, hn, ih]
    · have hb : c ≠ '\\' := fun e => h (Or.inr e)
      simp only [escapeQuoted, if_neg h]
      rw [unescape, ih]
      exact fun _ _ he _ => hb he

end ChartParsing.Text
