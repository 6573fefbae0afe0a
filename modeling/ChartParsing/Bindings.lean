/-!
# Named objects

A finite map from names to objects. Binding a name again replaces what it was bound to.
-/

namespace ChartParsing

/-- Names with the objects that they are bound to. -/
structure Bindings (ο : Type) where
  entries : List (String × ο)

namespace Bindings

variable {ο : Type}

/-- No name is bound. -/
def empty : Bindings ο := ⟨[]⟩

/-- The object that a name is bound to. -/
def get? (b : Bindings ο) (name : String) : Option ο :=
  (b.entries.find? fun e => e.1 == name).map (·.2)

/-- Binds a name to an object. -/
def set (b : Bindings ο) (name : String) (object : ο) : Bindings ο :=
  ⟨(name, object) :: b.entries.filter fun e => e.1 != name⟩

theorem get?_set_self (b : Bindings ο) (name : String) (object : ο) :
    (b.set name object).get? name = some object := by
  simp [get?, set]

theorem get?_set_of_ne (b : Bindings ο) {name other : String} (object : ο) (h : other ≠ name) :
    (b.set name object).get? other = b.get? other := by
  have h1 : (name == other) = false := by simp [Ne.symm h]
  simp only [get?, set, List.find?_cons, h1, List.find?_filter]
  congr 2
  funext e
  by_cases he : e.1 = other
  · simp [he, h]
  · simp [he]

end Bindings

end ChartParsing
