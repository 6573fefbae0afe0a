import ChartParsing.FirstSeen
import ChartParsing.Value

/-!
# Tables of names

A name table gives each name a handle, counted from zero in the order in which the names
were first seen. A table only grows: `intern` adds a name at the end if it is new, so a
handle never changes its meaning, and the same name never gets a second handle.
-/

namespace ChartParsing

/-- A handle of a name, which means something only for the table that gave it out. -/
abbrev Symbol := Int

/-- The names that have handles, in the order of their handles. -/
structure NameTable where
  names : List String
deriving DecidableEq, Repr

/-- The ways in which a value can fail to be the handle of a name. -/
inductive LookupError where
  /-- A number that was not given out. -/
  | unknown (handle : Value)
  | mistyped (cause : Mistyped)
deriving Repr

/-- What is wrong, in words. -/
def LookupError.message : LookupError → String
  | unknown handle => "unknown symbol handle " ++ handle.literal
  | mistyped cause => cause.message

namespace NameTable

/-- The table without names. -/
def empty : NameTable := ⟨[]⟩

/-- The number of names, which is the next handle to be given out. -/
def size (t : NameTable) : Nat := t.names.length

/-- The handle of a name that has one. -/
def find? (t : NameTable) (name : String) : Option Symbol :=
  (t.names.idxOf? name).map Int.ofNat

/-- Whether a name has a handle. -/
def contains (t : NameTable) (name : String) : Bool :=
  (t.find? name).isSome

/-- The name of a handle that was given out. -/
def resolve? (t : NameTable) (handle : Symbol) : Option String :=
  if 0 ≤ handle then t.names[handle.toNat]? else none

/-- The name of a handle, which must have been given out. -/
def resolve (t : NameTable) (handle : Symbol) : Except LookupError String :=
  match t.resolve? handle with
  | some name => .ok name
  | none => .error (.unknown (.int handle))

/-- The name of a value, which must be a handle that was given out. A number with decimal
places is no handle even among those that were. -/
def resolveValue (t : NameTable) (v : Value) : Except LookupError String :=
  match v with
  | .int handle => t.resolve handle
  | .bool b =>
    match t.resolve? (if b then 1 else 0) with
    | some name => .ok name
    | none => .error (.unknown v)
  | .decimal mantissa places =>
    if 0 ≤ mantissa ∧ mantissa < t.size * Int.pow 10 places then
      .error (.mistyped (.fractionalHandle v))
    else .error (.unknown v)
  | v => .error (.mistyped (.notHandle v))

/-- The handle of a value that is a name and has one. Only a string is a name, and a value of
which a part can be changed in place is refused. -/
def findValue? (t : NameTable) (v : Value) : Except Mistyped (Option Symbol) :=
  v.hashed.map fun v => v.str?.bind t.find?

/-- The symbol that a value stands for: a string for the handle of its name, and every other
value for itself. A string without a handle stands for no symbol. -/
def symbolValue (t : NameTable) (v : Value) : Value :=
  match v with
  | .str name =>
    match t.find? name with
    | some handle => .int handle
    | none => .null
  | v => v

/-- The table with a name added at the end, unless it is there. -/
def add (t : NameTable) (name : String) : NameTable :=
  ⟨FirstSeen.add t.names name⟩

/-- The handle of a name, which the table gets if it is new. -/
def intern (name : String) : StateM NameTable Symbol := fun t =>
  match t.find? name with
  | some handle => (handle, t)
  | none => (t.size, ⟨t.names ++ [name]⟩)

/-- The handle of a value, which must be a name, and the table after it was given out. -/
def internValue (t : NameTable) (v : Value) : Except Mistyped (Symbol × NameTable) :=
  match v with
  | .str name => .ok ((intern name).run t)
  | v => .error (.notName v)

/-- The table of a list of names. -/
def ofList (names : List String) : NameTable :=
  names.foldl add empty

/-- The table of a list of values, which must be names. -/
def ofValues (vs : List Value) : Except Mistyped NameTable :=
  vs.foldlM (fun t v => (·.2) <$> t.internValue v) empty

/-- The table of a value whose elements must be names. -/
def ofValue (v : Value) : Except Mistyped NameTable := do
  ofValues (← v.elements)

/-- A table as it is shown. -/
def literal (t : NameTable) : String :=
  "SymbolTable([" ++ ", ".intercalate (t.names.map Text.literal) ++ "])"

theorem find?_eq_none_iff {t : NameTable} {name : String} :
    t.find? name = none ↔ name ∉ t.names := by
  simp [find?]

theorem run_intern_of_find? {name : String} {t : NameTable} {handle : Symbol}
    (h : t.find? name = some handle) : (intern name).run t = (handle, t) := by
  show (match t.find? name with
    | some handle => (handle, t)
    | none => (Int.ofNat t.size, ⟨t.names ++ [name]⟩)) = _
  rw [h]

theorem run_intern_of_new {name : String} {t : NameTable} (h : t.find? name = none) :
    (intern name).run t = (Int.ofNat t.size, ⟨t.names ++ [name]⟩) := by
  show (match t.find? name with
    | some handle => (handle, t)
    | none => (Int.ofNat t.size, ⟨t.names ++ [name]⟩)) = _
  rw [h]

theorem run_intern_snd (name : String) (t : NameTable) : ((intern name).run t).2 = t.add name := by
  cases h : t.find? name with
  | some handle =>
    have hm : name ∈ t.names := by
      apply Decidable.byContradiction
      intro hn
      rw [find?_eq_none_iff.2 hn] at h
      cases h
    rw [run_intern_of_find? h, add, FirstSeen.add_of_mem hm]
  | none => rw [run_intern_of_new h, add, FirstSeen.add_of_not_mem (find?_eq_none_iff.1 h)]

theorem names_ofList (names : List String) : (ofList names).names = FirstSeen.ofList names := by
  have h : ∀ (names : List String) (t : NameTable),
      (names.foldl add t).names = FirstSeen.addAll t.names names := by
    intro names
    induction names with
    | nil => intro t; rfl
    | cons n names ih => intro t; exact ih (t.add n)
  exact h names empty

end NameTable

end ChartParsing
