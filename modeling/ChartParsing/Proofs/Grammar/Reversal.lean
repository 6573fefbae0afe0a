import ChartParsing.Proofs.Grammar.Checking

/-!
# Descriptions read backwards

A description is read backwards when the two symbols on the right side of each binary rule change
places. What is declared and the unit rules stay as they are, so a description that passes the
checks still passes them, with the declarations read backwards (`Description.check_backwards`).
-/

namespace ChartParsing

/-- A binary rule with its right side read backwards; what is no binary rule stays as it is. -/
def Value.backwards (rule : Value) : Value :=
  match rule.elements? with
  | some [a, b, c] => .tuple [a, c, b]
  | _ => rule

theorem Value.elements?_backwards {rule a b c : Value} (h : rule.elements? = some [a, b, c]) :
    rule.backwards.elements? = some [a, c, b] := by
  rw [backwards, h]
  rfl

/-- The declarations with the right sides of the binary rules read backwards. -/
def Declarations.backwards {σ : Type} (d : Declarations σ) : Declarations σ :=
  { d with binary := d.binary.map fun r => (r.1, r.2.2, r.2.1) }

/-- A binary rule is declared backwards when it is declared the other way round. -/
theorem Declarations.mem_binary_backwards {σ : Type} {d : Declarations σ} {a b c : σ} :
    (a, b, c) ∈ d.backwards.binary ↔ (a, c, b) ∈ d.binary := by
  simp only [backwards, List.mem_map, Prod.mk.injEq]
  constructor
  · rintro ⟨r, hr, rfl, rfl, rfl⟩
    exact hr
  · exact fun hr => ⟨_, hr, rfl, rfl, rfl⟩

theorem Declarations.IsConsistent.backwards {c : Declarations String} (h : c.IsConsistent) :
    c.backwards.IsConsistent where
  disjoint := h.disjoint
  start_mem := h.start_mem
  binary_mem r hr := by
    obtain ⟨hleft, hfirst, hsecond⟩ := h.binary_mem _ (mem_binary_backwards.1 hr)
    exact ⟨hleft, hsecond, hfirst⟩
  unit_mem := h.unit_mem
  ne_empty := h.ne_empty
  length_eq := h.length_eq

namespace Description

variable {d : Description} {c : Declarations String}

/-- The description with the right sides of the binary rules read backwards. -/
def backwards (d : Description) : Description :=
  { d with binary := d.binary.map Value.backwards }

theorem Says.backwards (h : d.Says c) : d.backwards.Says c.backwards where
  start := h.start
  terminals := h.terminals
  nonterminals := h.nonterminals
  binary := by
    rw [Description.backwards, Declarations.backwards, List.forall₂_map_left_iff,
      List.forall₂_map_right_iff]
    exact h.binary.imp fun _ _ => Value.elements?_backwards
  unit := h.unit

/-- Declarations that come out of a description come out backwards when it is read backwards. -/
theorem check_backwards (h : d.check = .ok c) : d.backwards.check = .ok c.backwards := by
  obtain ⟨hmeans, hconsistent⟩ := check_eq_ok_iff.1 h
  exact check_eq_ok_iff.2 ⟨hmeans.backwards, hconsistent.backwards⟩

end Description

end ChartParsing
