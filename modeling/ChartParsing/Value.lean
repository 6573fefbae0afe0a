import ChartParsing.Text.Literal

/-!
# Loosely typed values

What a caller hands over where names, lists of names and rules are expected, before it is
checked. `Value.literal` writes a value so that it can be told from every other,
`Value.text` writes a string bare, and `Mistyped` lists the ways in which a value can be of
the wrong type for the place it stands in.
-/

namespace ChartParsing

/-- A value of any type. -/
inductive Value where
  | null
  | bool (b : Bool)
  | int (n : Int)
  /-- The number `mantissa / 10 ^ places`. -/
  | decimal (mantissa : Int) (places : Nat)
  | str (s : String)
  | list (items : List Value)
  | tuple (items : List Value)
  /-- A record without fields. -/
  | record
deriving Repr, Inhabited

namespace Value

/-- The name of a value's type. -/
def typeName : Value → String
  | null => "NoneType"
  | bool _ => "bool"
  | int _ => "int"
  | decimal .. => "float"
  | str _ => "str"
  | list _ => "list"
  | tuple _ => "tuple"
  | record => "dict"

/-- The digits of a decimal number, at least one of them before the point. -/
def decimalText (mantissa : Int) (places : Nat) : String :=
  let digits := (Nat.toDigits 10 mantissa.natAbs).leftpad (places + 1) '0'
  let whole := digits.take (digits.length - places)
  let fraction := digits.drop (digits.length - places)
  (if mantissa < 0 then "-" else "") ++ String.ofList whole ++ "." ++
    String.ofList (if fraction.isEmpty then ['0'] else fraction)

mutual

/-- A value as it would be written in a source. -/
def literal : Value → String
  | null => "None"
  | bool true => "True"
  | bool false => "False"
  | int n => toString n
  | decimal mantissa places => decimalText mantissa places
  | str s => Text.literal s
  | list items => "[" ++ ", ".intercalate (literals items) ++ "]"
  | tuple [v] => "(" ++ v.literal ++ ",)"
  | tuple items => "(" ++ ", ".intercalate (literals items) ++ ")"
  | record => "\x7b\x7d"

/-- The literals of a list of values. -/
def literals : List Value → List String
  | [] => []
  | v :: rest => v.literal :: literals rest

end

/-- A value as it is printed: a string is its own text. -/
def text : Value → String
  | str s => s
  | v => v.literal

/-- The string that a value is. -/
def str? : Value → Option String
  | str s => some s
  | _ => none

/-- The elements of a value that has elements; those of a string are its characters. -/
def elements? : Value → Option (List Value)
  | list items => some items
  | tuple items => some items
  | str s => some (s.toList.map fun c => str (String.singleton c))
  | record => some []
  | _ => none

mutual

/-- The first part of a value that can be changed in place. A list or a record is itself such a
part; a tuple can only hold one. -/
def mutablePart? : Value → Option Value
  | list items => some (list items)
  | record => some record
  | tuple items => firstMutable? items
  | _ => none

/-- The first part that can be changed in place among several values. -/
def firstMutable? : List Value → Option Value
  | [] => none
  | v :: rest => v.mutablePart?.or (firstMutable? rest)

end

/-- The whole number that a value equals; the truth values count as zero and one. -/
def number? : Value → Option Int
  | bool b => some (if b then 1 else 0)
  | int n => some n
  | decimal mantissa places =>
    if mantissa % Int.pow 10 places = 0 then some (mantissa / Int.pow 10 places) else none
  | _ => none

/-- Drops the strings that were seen before, and keeps the rest in order. -/
def dropSeen (seen : List String) : List Value → List Value
  | [] => []
  | str s :: rest => if s ∈ seen then dropSeen seen rest else str s :: dropSeen (s :: seen) rest
  | v :: rest => v :: dropSeen seen rest

/-- Drops every string that stands earlier in the list. -/
def dropRepeats (vs : List Value) : List Value :=
  dropSeen [] vs

theorem str?_eq_some_iff {v : Value} {s : String} : v.str? = some s ↔ v = str s := by
  cases v <;> simp [str?]

theorem firstMutable?_eq_none_iff {vs : List Value} :
    firstMutable? vs = none ↔ ∀ v ∈ vs, v.mutablePart? = none := by
  induction vs with
  | nil => simp [firstMutable?]
  | cons v vs ih => rw [firstMutable?, Option.or_eq_none_iff, ih, List.forall_mem_cons]

end Value

/-- The ways in which a value can be of the wrong type. -/
inductive Mistyped where
  /-- Elements were asked of a value that has none. -/
  | notIterable (v : Value)
  /-- A length was asked of a value that has none. -/
  | unsized (v : Value)
  /-- A value was declared or looked up of which a part can be changed in place. -/
  | unhashable (part : Value)
  /-- The value at a position of a list of names is no name. -/
  | notJoinable (position : Nat) (v : Value)
  /-- A symbol name is no string. -/
  | notName (v : Value)
  /-- A symbol's handle is no number. -/
  | notHandle (v : Value)
  /-- A symbol's handle is a number with decimal places. -/
  | fractionalHandle (v : Value)
deriving Repr

namespace Mistyped

/-- What is wrong, in words. -/
def message : Mistyped → String
  | notIterable v => "'" ++ v.typeName ++ "' object is not iterable"
  | unsized v => "object of type '" ++ v.typeName ++ "' has no len()"
  | unhashable part => "unhashable type: '" ++ part.typeName ++ "'"
  | notJoinable position v =>
    "sequence item " ++ toString position ++ ": expected str instance, " ++ v.typeName ++ " found"
  | notName v => "symbol names are strings, got " ++ v.typeName ++ ": " ++ v.literal
  | notHandle v =>
    "'<=' not supported between instances of 'int' and '" ++ v.typeName ++ "'"
  | fractionalHandle v => "list indices must be integers or slices, not " ++ v.typeName

end Mistyped

namespace Value

/-- The elements of a value, which must have elements. -/
def elements (v : Value) : Except Mistyped (List Value) :=
  match v.elements? with
  | some vs => .ok vs
  | none => .error (.notIterable v)

/-- A value that something is looked up under, no part of which can be changed in place. -/
def hashed (v : Value) : Except Mistyped Value :=
  match v.mutablePart? with
  | some part => .error (.unhashable part)
  | none => .ok v

/-- The handle that a value is looked up under, if it is the number of one. -/
def lookupKey (v : Value) : Except Mistyped (Option Int) :=
  v.hashed.map number?

/-- The elements of a value, which must have a length. -/
def sized (v : Value) : Except Mistyped (List Value) :=
  match v.elements? with
  | some vs => .ok vs
  | none => .error (.unsized v)

end Value

end ChartParsing
