import ChartParsing.Text.Literal

/-!
# Diagnostics

A diagnostic marks a character of the text that no rule accounts for, or says that there is
no text.
-/

namespace ChartParsing

/-- A remark on a position of the text; `char` is empty when it is about no character. -/
structure Diagnostic where
  position : Int
  char : String
  remark : String
deriving DecidableEq, Repr

namespace Diagnostic

/-- The remark on a character that no rule accounts for. -/
def unrecognized (position : Int) (char : String) : Diagnostic :=
  ⟨position, char, "unrecognized character"⟩

/-- The remark on a text without characters. -/
def noText : Diagnostic := ⟨0, "", "empty input"⟩

/-- A diagnostic in words. -/
def message (d : Diagnostic) : String :=
  toString d.position ++ ": " ++ d.remark ++
    if d.char.isEmpty then "" else " " ++ Text.literal d.char

end Diagnostic

end ChartParsing
