import ChartParsing.NameTable

/-!
# Calls on a name table

A table is asked for handles, for names and for its contents, in any order and with values of any
type. A call that fails leaves the table as it was, and so does every call but `intern`.
-/

namespace ChartParsing

/-- Something that a name table is asked for. -/
inductive NameCall where
  /-- The handle of a name, which the table gets if it is new. -/
  | intern (name : Value)
  /-- The name of a handle. -/
  | resolve (handle : Value)
  /-- Whether a name has a handle. -/
  | contains (name : Value)
  /-- The handle of a name that has one, or else a default. -/
  | find (name default : Value)
  | size
  | list
deriving Repr

/-- The name that a call gives a handle, if it is new. -/
def NameCall.interned? : NameCall → Option String
  | intern name => name.str?
  | _ => none

/-- What a name table answers. -/
inductive NameAnswer where
  | handle (handle : Symbol)
  | name (name : String)
  | truth (b : Bool)
  /-- The default of a look-up that found no handle. -/
  | default (v : Value)
  | size (n : Nat)
  | list (names : List String)
deriving Repr

namespace NameAnswer

/-- Whether a handle was found. -/
def ofFound (found : Option Symbol) : NameAnswer := .truth found.isSome

/-- The handle that was found, or another value. -/
def ofFoundOr (other : Value) : Option Symbol → NameAnswer
  | some found => .handle found
  | none => .default other

end NameAnswer

/-- What keeps names: how it gives out handles, looks up handles and names, and lists its names. -/
structure NameKeeper (σ : Type) where
  internValue : σ → Value → Except Mistyped (Symbol × σ)
  resolveValue : σ → Value → Except LookupError String
  findValue? : σ → Value → Except Mistyped (Option Symbol)
  names : σ → List String

namespace NameKeeper

variable {σ : Type}

/-- The answer to a call, and the state after it. -/
def apply (k : NameKeeper σ) (s : σ) : NameCall → Except LookupError NameAnswer × σ
  | .intern v =>
    match k.internValue s v with
    | .ok (handle, after) => (.ok (.handle handle), after)
    | .error cause => (.error (.mistyped cause), s)
  | .resolve v => ((k.resolveValue s v).map .name, s)
  | .contains v => (((k.findValue? s v).map .ofFound).mapError .mistyped, s)
  | .find v default => (((k.findValue? s v).map (.ofFoundOr default)).mapError .mistyped, s)
  | .size => (.ok (.size (k.names s).length), s)
  | .list => (.ok (.list (k.names s)), s)

/-- The answers to calls that are made one after the other, and the state after them. -/
def applyAll (k : NameKeeper σ) (s : σ) :
    List NameCall → List (Except LookupError NameAnswer) × σ
  | [] => ([], s)
  | call :: rest =>
    let first := k.apply s call
    let others := k.applyAll first.2 rest
    (first.1 :: others.1, others.2)

end NameKeeper

namespace NameTable

/-- A table keeps names. -/
def keeper : NameKeeper NameTable := ⟨internValue, resolveValue, findValue?, names⟩

/-- The answer to a call, and the table after it. -/
def apply (t : NameTable) (call : NameCall) : Except LookupError NameAnswer × NameTable :=
  keeper.apply t call

/-- The answers to calls that are made one after the other, and the table after them. -/
def applyAll (t : NameTable) (calls : List NameCall) :
    List (Except LookupError NameAnswer) × NameTable :=
  keeper.applyAll t calls

end NameTable

end ChartParsing
