import ChartParsing.Text.CharClasses

/-!
# Quoted literals of strings

`literal s` writes a string so that every character of it can be seen: between quotation
marks, with the mark in use and the backslash escaped, the three common line characters by
their letters, and every other character that is not printable by its code point.
-/

namespace ChartParsing.Text

/-- The mark around a literal: single, unless only the double mark is free of escapes. -/
def literalMark (cs : List Char) : Char :=
  if cs.contains '\'' && !cs.contains '"' then '"' else '\''

/-- The hexadecimal digits of a number, filled up with zeros to a width. -/
def hexDigits (width n : Nat) : List Char :=
  (Nat.toDigits 16 n).leftpad width '0'

/-- A code point by number, in the shortest of the three forms that holds it. -/
def codePointEscape (n : Nat) : List Char :=
  if n < 0x100 then '\\' :: 'x' :: hexDigits 2 n
  else if n < 0x10000 then '\\' :: 'u' :: hexDigits 4 n
  else '\\' :: 'U' :: hexDigits 8 n

/-- One character of a literal whose quotation mark is given. -/
def literalChar (mark c : Char) : List Char :=
  if c = mark ∨ c = '\\' then ['\\', c]
  else if c = '\n' then ['\\', 'n']
  else if c = '\r' then ['\\', 'r']
  else if c = '\t' then ['\\', 't']
  else if isPrintable c then [c]
  else codePointEscape c.toNat

/-- The quoted literal of a list of characters. -/
def literalChars (cs : List Char) : List Char :=
  literalMark cs :: cs.flatMap (literalChar (literalMark cs)) ++ [literalMark cs]

/-- The quoted literal of a string. -/
def literal (s : String) : String :=
  String.ofList (literalChars s.toList)

theorem literalMark_eq (cs : List Char) : literalMark cs = '\'' ∨ literalMark cs = '"' := by
  unfold literalMark
  split <;> simp

end ChartParsing.Text
