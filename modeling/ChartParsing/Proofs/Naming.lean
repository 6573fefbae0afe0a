import ChartParsing.NameTable
import Mathlib.Data.List.Forall2

/-!
# Tables of names only grow

A handle keeps its meaning while a table grows (`NameTable.find?_of_growsTo`), so what a run
of `intern` gave out can be read in every later table. `Settles` says this of a whole run:
its result stands in a relation to the table it leaves and to all tables that grow from it.
-/

namespace ChartParsing

namespace NameTable

variable {t t' t'' : NameTable} {name other : String} {handle : Symbol}

/-- Whether a table can become another one by getting new names. -/
def GrowsTo (t t' : NameTable) : Prop := t.names <+: t'.names

theorem GrowsTo.refl (t : NameTable) : t.GrowsTo t := List.prefix_rfl

theorem GrowsTo.trans (h : t.GrowsTo t') (h' : t'.GrowsTo t'') : t.GrowsTo t'' :=
  List.IsPrefix.trans h h'

theorem find?_eq_some_iff : t.find? name = some handle ↔
    ∃ i : Nat, handle = i ∧ t.names.idxOf? name = some i := by
  unfold find?
  rw [Option.map_eq_some_iff]
  constructor
  · rintro ⟨i, hi, rfl⟩
    exact ⟨i, rfl, hi⟩
  · rintro ⟨i, rfl, hi⟩
    exact ⟨i, hi, rfl⟩

/-- A handle that was given out stays. -/
theorem find?_of_growsTo (h : t.GrowsTo t') (hf : t.find? name = some handle) :
    t'.find? name = some handle := by
  obtain ⟨i, rfl, hi⟩ := find?_eq_some_iff.1 hf
  obtain ⟨rest, hr⟩ := h
  refine find?_eq_some_iff.2 ⟨i, rfl, ?_⟩
  rw [List.idxOf?] at hi
  rw [← hr, List.idxOf?, List.findIdx?_append, hi, Option.some_or]

theorem resolve_eq_ok_iff : t.resolve handle = .ok name ↔
    ∃ i : Nat, handle = i ∧ t.names[i]? = some name := by
  have h : t.resolve handle = .ok name ↔ t.resolve? handle = some name := by
    unfold resolve
    cases t.resolve? handle <;> simp
  rw [h, resolve?, Option.ite_none_right_eq_some]
  constructor
  · rintro ⟨hpos, hn⟩
    exact ⟨handle.toNat, (Int.toNat_of_nonneg hpos).symm, hn⟩
  · rintro ⟨i, rfl, hn⟩
    exact ⟨Int.natCast_nonneg i, hn⟩

/-- A handle keeps its name. -/
theorem resolve_of_growsTo (h : t.GrowsTo t') (hr : t.resolve handle = .ok name) :
    t'.resolve handle = .ok name := by
  obtain ⟨i, rfl, hn⟩ := resolve_eq_ok_iff.1 hr
  obtain ⟨rest, hrest⟩ := h
  refine resolve_eq_ok_iff.2 ⟨i, rfl, ?_⟩
  have hlt : i < t.names.length := (List.getElem?_eq_some_iff.1 hn).1
  rw [← hrest, List.getElem?_append_left hlt, hn]

/-- The name of a handle is the one that it was given out for. -/
theorem resolve_of_find? (h : t.find? name = some handle) : t.resolve handle = .ok name := by
  obtain ⟨i, rfl, hi⟩ := find?_eq_some_iff.1 h
  obtain ⟨hlt, hp, -⟩ := List.findIdx?_eq_some_iff_getElem.1 hi
  have hn : t.names[i] = name := eq_of_beq hp
  exact resolve_eq_ok_iff.2 ⟨i, rfl, by rw [List.getElem?_eq_getElem hlt, hn]⟩

/-- A handle that was given out is the handle of the name that it stands for, and of no
other. -/
theorem find?_eq_some_iff_resolve (h : t.find? name = some handle) :
    t.find? other = some handle ↔ t.resolve handle = .ok other := by
  constructor
  · exact resolve_of_find?
  · intro hr
    rw [resolve_of_find? h, Except.ok.injEq] at hr
    rw [← hr, h]

end NameTable

/-- A run makes the table grow, and its result and the table that it leaves are in a
relation, as are its result and every later table. -/
def Settles {α : Type} (run : StateM NameTable α) (R : NameTable → α → Prop) : Prop :=
  ∀ t : NameTable, t.GrowsTo (run.run t).2 ∧
    ∀ later, (run.run t).2.GrowsTo later → R later (run.run t).1

namespace Settles

variable {α β : Type} {R : NameTable → α → Prop} {S : NameTable → β → Prop}

theorem intern (name : String) :
    Settles (NameTable.intern name) fun t handle => t.find? name = some handle := by
  intro t
  cases h : t.find? name with
  | some handle =>
    rw [NameTable.run_intern_of_find? h]
    exact ⟨.refl t, fun later hl => NameTable.find?_of_growsTo hl h⟩
  | none =>
    rw [NameTable.run_intern_of_new h]
    refine ⟨List.prefix_append t.names [name], fun later hl => ?_⟩
    apply NameTable.find?_of_growsTo hl
    apply NameTable.find?_eq_some_iff.2
    have hn : name ∉ t.names := NameTable.find?_eq_none_iff.1 h
    refine ⟨t.names.length, rfl, ?_⟩
    rw [List.idxOf?, List.findIdx?_append]
    have : t.names.findIdx? (· == name) = none := by
      rw [List.findIdx?_eq_none_iff]
      intro x hx
      exact beq_eq_false_iff_ne.2 fun he => hn (he ▸ hx)
    simp [this]

theorem pure {a : α} (h : ∀ t, R t a) : Settles (Pure.pure a) R :=
  fun t => ⟨.refl t, fun later _ => h later⟩

theorem bind {run : StateM NameTable α} {next : α → StateM NameTable β}
    (h : Settles run R) (hn : ∀ a, Settles (next a) fun t b => R t a → S t b) :
    Settles (run >>= next) S := by
  intro t
  obtain ⟨hg, hr⟩ := h t
  obtain ⟨hg', hs⟩ := hn (run.run t).1 (run.run t).2
  exact ⟨hg.trans hg', fun later hl => hs later hl (hr later (hg'.trans hl))⟩

/-- A run over a list settles its results one by one. -/
theorem mapM {R : NameTable → α → β → Prop} {next : α → StateM NameTable β}
    (h : ∀ a, Settles (next a) fun t b => R t a b) (as : List α) :
    Settles (as.mapM next) fun t bs => List.Forall₂ (R t) as bs := by
  induction as with
  | nil => exact pure fun _ => .nil
  | cons a as ih =>
    rw [List.mapM_cons]
    apply bind (h a)
    intro b
    apply bind ih
    intro bs
    exact pure fun _ hbs hb => .cons hb hbs

end Settles

end ChartParsing
