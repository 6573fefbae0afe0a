import ChartParsing.Bindings
import ChartParsing.NameTable.Calls

/-!
# Names kept in two parts

A register keeps its names twice: a dictionary has the handle of each name, and a list has the
name of each handle. The handle of a name is looked up in the dictionary and the name of a handle
in the list, and nothing in the type makes the two agree.
-/

namespace ChartParsing

/-- A dictionary of handles beside a list of names. -/
structure NameRegister where
  handles : Bindings Symbol
  strings : List String

namespace NameRegister

/-- The register without names. -/
def empty : NameRegister := ⟨.empty, []⟩

/-- The handle of a name. A new name is entered in the list and in the dictionary. -/
def intern (r : NameRegister) (name : String) : Symbol × NameRegister :=
  match r.handles.get? name with
  | some handle => (handle, r)
  | none =>
    let handle : Symbol := r.strings.length
    (handle, ⟨r.handles.set name handle, r.strings ++ [name]⟩)

/-- The handle of a value, which must be a name, and the register after it was given out. -/
def internValue (r : NameRegister) (v : Value) : Except Mistyped (Symbol × NameRegister) :=
  match v with
  | .str name => .ok (r.intern name)
  | v => .error (.notName v)

/-- The handle that the dictionary has for a value. -/
def findValue? (r : NameRegister) (v : Value) : Except Mistyped (Option Symbol) :=
  v.hashed.map fun v => v.str?.bind r.handles.get?

/-- The name that stands in the list at the place of a value, which must be a handle. -/
def resolveValue (r : NameRegister) (v : Value) : Except LookupError String :=
  NameTable.resolveValue ⟨r.strings⟩ v

/-- The register of a list of values, which must be names. -/
def ofValues (vs : List Value) : Except Mistyped NameRegister :=
  vs.foldlM (fun r v => (·.2) <$> r.internValue v) empty

/-- A register keeps names. -/
def keeper : NameKeeper NameRegister := ⟨internValue, resolveValue, findValue?, strings⟩

/-- The answer to a call, and the register after it. -/
def apply (r : NameRegister) (call : NameCall) : Except LookupError NameAnswer × NameRegister :=
  keeper.apply r call

/-- The answers to calls that are made one after the other, and the register after them. -/
def applyAll (r : NameRegister) (calls : List NameCall) :
    List (Except LookupError NameAnswer) × NameRegister :=
  keeper.applyAll r calls

end NameRegister

end ChartParsing
