import ChartParsing.GrammarText.Item
import ChartParsing.GrammarText.SyntaxError

/-!
# Reading the items of grammar text

Between tokens the reader passes over white space and over comments, which reach from a
percent sign to the end of their line. At each point it tries only the tokens that can come
next, so the same characters may be a name in one place and the left side of a rule in
another. It stops at the first character where no such token stands, and at the last token
if the text ends too early.
-/

namespace ChartParsing.GrammarText

/-- The white space that separates tokens. -/
def isSeparator (c : Char) : Bool :=
  c == ' ' || c == '\t' || c == '\x0c' || c == '\r' || c == '\n'

/-- What follows separators and comments at the front of a text, which may begin within a
comment. -/
def skipFrom (inComment : Bool) : List Char → List Char
  | [] => []
  | c :: rest =>
    if inComment then skipFrom (!(c == '\n' || c == '\r')) rest
    else if c == '%' then skipFrom true rest
    else if isSeparator c then skipFrom false rest
    else c :: rest

/-- What follows separators and comments at the front of a text. -/
def skip (cs : List Char) : List Char :=
  skipFrom false cs

/-- What the first token that can come next makes of a draft: the items it completes, the
draft after it, and the rest of the text. -/
def next? (d : Draft) (cs : List Char) : Option (List Item × Draft × List Char) :=
  Token.scanners.findSome? fun scan =>
    match scan cs with
    | some (token, rest) => (d.accept token).map fun r => (r.1, r.2, rest)
    | none => none

theorem length_lt_of_next? {d d' : Draft} {cs rest : List Char} {items : List Item}
    (h : next? d cs = some (items, d', rest)) : rest.length < cs.length := by
  obtain ⟨scan, hs, h⟩ := List.exists_of_findSome?_eq_some h
  split at h
  · rename_i token r hr
    obtain ⟨p, _, he⟩ := Option.map_eq_some_iff.1 h
    cases he
    exact length_lt_of_scan hs hr
  · cases h

theorem length_skipFrom_le (inComment : Bool) (cs : List Char) :
    (skipFrom inComment cs).length ≤ cs.length := by
  induction cs generalizing inComment with
  | nil => simp [skipFrom]
  | cons c cs ih =>
    have := ih true
    have := ih false
    have := ih (!(c == '\n' || c == '\r'))
    simp only [skipFrom]
    split
    · simp only [List.length_cons]
      omega
    · split
      · simp only [List.length_cons]
        omega
      · split <;> simp only [List.length_cons] <;> omega

/-- The items of a text of which `cs` is left, or what was left where reading stopped. The
last token began where `last` was left. -/
def itemsFrom (last : List Char) (d : Draft) (cs : List Char) : Except (List Char) (List Item) :=
  match _hs : skip cs with
  | [] =>
    match d.finish? with
    | some items => .ok items
    | none => .error last
  | c :: rest =>
    match _hn : next? d (c :: rest) with
    | none => .error (c :: rest)
    | some (items, d', rest') => (itemsFrom (c :: rest) d' rest').map (items ++ ·)
termination_by cs.length
decreasing_by
  have h1 := length_lt_of_next? _hn
  have h2 := length_skipFrom_le false cs
  rw [show skipFrom false cs = c :: rest from _hs] at h2
  omega

/-- The items of a text. -/
def items (source : String) : Except SyntaxError (List Item) :=
  let cs := source.toList
  (itemsFrom cs .none cs).mapError fun left => ⟨cs, cs.length - left.length⟩

end ChartParsing.GrammarText
