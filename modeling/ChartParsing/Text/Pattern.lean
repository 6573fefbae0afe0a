import ChartParsing.Text.Quoted

/-!
# The pattern of quoted terminals

A pattern is tried at a place of a text. It gives the places where it can end, in the order in
which a matcher that goes back to its last choice comes upon them, so the match is the one that
ends at the first of them. A lazy repetition prefers to end where it is. `quotedPattern` is the
pattern `".*?(?<!\\)(\\\\)*?"`: a quote, as few characters of the line as will do, and a quote with
an even number of backslashes before it, which it finds by looking behind.
-/

namespace ChartParsing.Text

/-- A place in a text: the characters before it, the nearest first, and those after it. -/
structure Place where
  behind : List Char
  ahead : List Char
deriving DecidableEq, Repr

/-- A pattern of text. -/
inductive Pattern where
  /-- One character out of a class. -/
  | one (allowed : Char → Bool)
  /-- No character, where a character does not stand right before. -/
  | notBehind (c : Char)
  | both (first second : Pattern)
  /-- Any number of times, but no more often than what follows needs. -/
  | lazily (p : Pattern)

/-- The places where a lazy repetition of a step can end. A step that goes nowhere is not
repeated. -/
def lazyEnds (step : Place → List Place) (place : Place) : List Place :=
  place :: (step place).flatMap fun next =>
    if _h : next.ahead.length < place.ahead.length then lazyEnds step next else []
termination_by place.ahead.length

namespace Pattern

/-- The places where a pattern that is tried at a place can end, the preferred first. -/
def ends : Pattern → Place → List Place
  | one allowed, ⟨behind, c :: rest⟩ => if allowed c then [⟨c :: behind, rest⟩] else []
  | one _, ⟨_, []⟩ => []
  | notBehind c, place => if place.behind.head? = some c then [] else [place]
  | both first second, place => (first.ends place).flatMap second.ends
  | lazily p, place => lazyEnds p.ends place

/-- The text that a pattern matches after `behind`, and what follows it. -/
def match? (p : Pattern) (behind cs : List Char) : Option (List Char × List Char) :=
  (p.ends ⟨behind, cs⟩).head?.map fun place =>
    (cs.take (cs.length - place.ahead.length), place.ahead)

/-- A given character. -/
def only (c : Char) : Pattern := one fun d => decide (d = c)

/-- Pairs of backslashes, as few as will do, and a double quote. -/
def pairsAndQuote : Pattern :=
  both (lazily (both (only '\\') (only '\\'))) (only '"')

/-- As few characters of the line as will do, then pairs of backslashes that no backslash stands
before, and a double quote. -/
def bodyAndQuote : Pattern :=
  both (lazily (one fun c => decide (c ≠ '\n'))) (both (notBehind '\\') pairsAndQuote)

end Pattern

/-- The pattern of a quoted terminal. -/
def quotedPattern : Pattern :=
  .both (.only '"') .bodyAndQuote

/-- A character between the quotes of a terminal: itself, or behind a backslash. -/
inductive QuotedItem where
  | plain (c : Char) (hquote : c ≠ '"') (hbackslash : c ≠ '\\') (hline : c ≠ '\n')
  | escaped (c : Char) (hline : c ≠ '\n')

namespace QuotedItem

/-- An item as it is written. -/
def written : QuotedItem → List Char
  | plain c _ _ _ => [c]
  | escaped c _ => ['\\', c]

/-- The character that an item stands for. -/
def meaning : QuotedItem → Char
  | plain c _ _ _ => c
  | escaped c _ => c

end QuotedItem

/-- The quoted literal that is made of some items. -/
def literalOf (items : List QuotedItem) : List Char :=
  '"' :: items.flatMap QuotedItem.written ++ ['"']

end ChartParsing.Text
