import ChartParsing.Grammar.Description
import ChartParsing.Proofs.Grammar.NormalForm
import ChartParsing.Proofs.Steps
import Mathlib.Data.Set.List

/-!
# What the checks of a description let through

Each check has one `_eq_ok_iff` lemma that says which values it accepts and which names it
makes of them; `check_eq_ok_iff` puts them together: the declarations that come out of a
description say by names what it says in values (`Description.Says`), and they are consistent
(`Declarations.IsConsistent`). `Description.IsWellFormed` says the same of the values alone.
A description that is refused is refused for a flaw as long as its rules are sequences
(`failsByFlaw_check`).
-/

namespace ChartParsing

section Results

variable {ε α : Type} {p : Prop} [Decidable p] {a b : α} {e : ε}

theorem if_eq_ok_or_error_iff :
    (if p then Except.ok a else Except.error e) = .ok b ↔ a = b ∧ p := by
  by_cases h : p <;> simp [h]

theorem if_eq_error_or_ok_iff :
    (if p then Except.error e else Except.ok a) = .ok b ↔ a = b ∧ ¬p := by
  by_cases h : p <;> simp [h]

end Results

theorem Value.sized_eq_ok_iff {v : Value} {vs : List Value} :
    v.sized = .ok vs ↔ v.elements? = some vs := by
  unfold Value.sized
  cases v.elements? <;> simp

/-- The declarations that a grammar can be built from. -/
structure Declarations.IsConsistent (c : Declarations String) : Prop extends c.IsSound where
  ne_empty : ∀ s ∈ c.nonterminals, s ≠ ""
  length_eq : ∀ s ∈ c.terminals, s.length = 1

namespace Description

section Checks

variable {v rule : Value} {s : String} {names terminals nonterminals : List String}

theorem nonterminalName_eq_ok_iff : nonterminalName v = .ok s ↔ v = .str s ∧ s ≠ "" := by
  cases v with
  | str t =>
    rw [nonterminalName, if_eq_error_or_ok_iff, Value.str.injEq, String.isEmpty_iff]
    exact and_congr_right fun h => h ▸ Iff.rfl
  | _ => simp [nonterminalName]

theorem terminalName_eq_ok_iff : terminalName v = .ok s ↔ v = .str s ∧ s.length = 1 := by
  cases v with
  | str t =>
    rw [terminalName, if_eq_ok_or_error_iff, Value.str.injEq]
    exact and_congr_right fun h => h ▸ Iff.rfl
  | _ => simp [terminalName]

theorem nameAmong_eq_ok_iff {flaw : Flaw} :
    nameAmong names flaw v = .ok s ↔ v = .str s ∧ s ∈ names := by
  cases v with
  | str t =>
    rw [nameAmong, if_eq_ok_or_error_iff, Value.str.injEq]
    exact and_congr_right fun h => h ▸ Iff.rfl
  | _ => simp [nameAmong]

theorem binaryRight_eq_ok_iff {parts : List Value} :
    binaryRight terminals nonterminals parts v = .ok s ↔
      v = .str s ∧ s ∈ nonterminals ∧ s ∉ terminals := by
  simp only [binaryRight, bind_eq_ok_iff, nameAmong_eq_ok_iff, if_eq_error_or_ok_iff]
  constructor
  · rintro ⟨t, ⟨rfl, hm⟩, rfl, hn⟩
    exact ⟨rfl, (List.mem_append.1 hm).resolve_left hn, hn⟩
  · rintro ⟨rfl, hm, hn⟩
    exact ⟨s, ⟨rfl, List.mem_append_right _ hm⟩, rfl, hn⟩

theorem binaryRule_eq_ok_iff {r : String × String × String} :
    binaryRule terminals nonterminals rule = .ok r ↔
      rule.elements? = some [.str r.1, .str r.2.1, .str r.2.2] ∧ r.1 ∈ nonterminals ∧
      (r.2.1 ∈ nonterminals ∧ r.2.1 ∉ terminals) ∧ r.2.2 ∈ nonterminals ∧ r.2.2 ∉ terminals := by
  simp only [binaryRule, bind_eq_ok_iff, mapError_eq_ok_iff, Value.sized_eq_ok_iff]
  constructor
  · rintro ⟨parts, hp, h⟩
    split at h
    · simp only [bind_eq_ok_iff, nameAmong_eq_ok_iff, binaryRight_eq_ok_iff] at h
      obtain ⟨a, ⟨rfl, ha⟩, b, ⟨rfl, hb⟩, c, ⟨rfl, hc⟩, h⟩ := h
      cases h
      exact ⟨hp, ha, hb, hc⟩
    · cases h
  · rintro ⟨hp, ha, hb, hc⟩
    refine ⟨_, hp, ?_⟩
    simp only [bind_eq_ok_iff, nameAmong_eq_ok_iff, binaryRight_eq_ok_iff]
    exact ⟨r.1, ⟨rfl, ha⟩, r.2.1, ⟨rfl, hb⟩, r.2.2, ⟨rfl, hc⟩, rfl⟩

theorem unitRule_eq_ok_iff {r : String × String} :
    unitRule terminals nonterminals rule = .ok r ↔
      rule.elements? = some [.str r.1, .str r.2] ∧ r.1 ∈ nonterminals ∧ r.2 ∈ terminals := by
  simp only [unitRule, bind_eq_ok_iff, mapError_eq_ok_iff, Value.sized_eq_ok_iff]
  constructor
  · rintro ⟨parts, hp, h⟩
    split at h
    · simp only [bind_eq_ok_iff, nameAmong_eq_ok_iff] at h
      obtain ⟨a, ⟨rfl, ha⟩, t, ⟨rfl, -⟩, h⟩ := h
      split at h
      · cases h
        exact ⟨hp, ha, ‹_›⟩
      · cases h
    · cases h
  · rintro ⟨hp, ha, ht⟩
    refine ⟨_, hp, ?_⟩
    simp only [bind_eq_ok_iff, nameAmong_eq_ok_iff]
    exact ⟨r.1, ⟨rfl, ha⟩, r.2, ⟨rfl, List.mem_append_left _ ht⟩, if_pos ht⟩

end Checks

variable {d : Description} {c : Declarations String}

/-- The checks of a description, with the names that they let through. -/
theorem check_eq_ok_iff_checks : d.check = .ok c ↔
    d.nonterminals.mapM nonterminalName = .ok c.nonterminals ∧
    d.terminals.mapM terminalName = .ok c.terminals ∧
    c.terminals.filter (· ∈ c.nonterminals) = [] ∧
    nameAmong c.nonterminals (.badStart d.start) d.start = .ok c.start ∧
    d.binary.mapM (binaryRule c.terminals c.nonterminals) = .ok c.binary ∧
    d.unit.mapM (unitRule c.terminals c.nonterminals) = .ok c.unit := by
  unfold check
  constructor
  · intro h
    obtain ⟨nonterminals, hn, h⟩ := bind_eq_ok_iff.1 h
    obtain ⟨terminals, ht, h⟩ := bind_eq_ok_iff.1 h
    by_cases hb : terminals.filter (· ∈ nonterminals) = []
    · simp only [hb, List.isEmpty_nil, Bool.not_true, Bool.false_eq_true, if_false] at h
      obtain ⟨start, hs, h⟩ := bind_eq_ok_iff.1 h
      obtain ⟨binary, hbin, h⟩ := bind_eq_ok_iff.1 h
      obtain ⟨unit, hu, h⟩ := bind_eq_ok_iff.1 h
      cases h
      exact ⟨hn, ht, hb, hs, hbin, hu⟩
    · have he : (terminals.filter (· ∈ nonterminals)).isEmpty = false := by simpa using hb
      simp only [he, Bool.not_false, if_true] at h
      cases h
  · rintro ⟨hn, ht, hb, hs, hbin, hu⟩
    refine bind_eq_ok_iff.2 ⟨_, hn, bind_eq_ok_iff.2 ⟨_, ht, ?_⟩⟩
    simp only [hb, List.isEmpty_nil, Bool.not_true, Bool.false_eq_true, if_false]
    refine bind_eq_ok_iff.2 ⟨_, hs, bind_eq_ok_iff.2 ⟨_, hbin, ?_⟩⟩
    exact bind_eq_ok_iff.2 ⟨_, hu, rfl⟩

/-- A rule given as a value is a binary rule over names. -/
def BinarySays (rule : Value) (r : String × String × String) : Prop :=
  rule.elements? = some [.str r.1, .str r.2.1, .str r.2.2]

/-- A rule given as a value is a unit rule over names. -/
def UnitSays (rule : Value) (r : String × String) : Prop :=
  rule.elements? = some [.str r.1, .str r.2]

/-- A description says by values what declarations say by names. -/
structure Says (d : Description) (c : Declarations String) : Prop where
  start : d.start = .str c.start
  terminals : d.terminals = c.terminals.map .str
  nonterminals : d.nonterminals = c.nonterminals.map .str
  binary : List.Forall₂ BinarySays d.binary c.binary
  unit : List.Forall₂ UnitSays d.unit c.unit

theorem map_str_iff {vs : List Value} {ss : List String} :
    vs = ss.map .str ↔ List.Forall₂ (fun v s => v = .str s) vs ss := by
  rw [← List.forall₂_eq_eq_eq, List.forall₂_map_right_iff]

/-- A list of values that are each accepted as a name is the list of these names. -/
theorem mapM_eq_ok_iff_map_str {check : Value → Except BuildError String} {p : String → Prop}
    (hcheck : ∀ v s, check v = .ok s ↔ v = .str s ∧ p s) {vs : List Value} {ss : List String} :
    vs.mapM check = .ok ss ↔ vs = ss.map .str ∧ ∀ s ∈ ss, p s := by
  simp only [mapM_eq_ok_iff, hcheck]
  constructor
  · intro h
    refine ⟨?_, fun s hs => ?_⟩
    · exact map_str_iff.2 (h.imp fun _ _ => And.left)
    · obtain ⟨v, -, -, hp⟩ := exists_of_mem_right h hs
      exact hp
  · rintro ⟨rfl, hp⟩
    rw [List.forall₂_map_left_iff, List.forall₂_same]
    exact fun s hs => ⟨rfl, hp s hs⟩

/-- The declarations that come out of the checks are consistent and say what the description
says. -/
theorem check_eq_ok_iff : d.check = .ok c ↔ d.Says c ∧ c.IsConsistent := by
  rw [check_eq_ok_iff_checks, mapM_eq_ok_iff_map_str fun _ _ => nonterminalName_eq_ok_iff,
    mapM_eq_ok_iff_map_str fun _ _ => terminalName_eq_ok_iff, nameAmong_eq_ok_iff,
    mapM_eq_ok_iff, mapM_eq_ok_iff]
  simp only [binaryRule_eq_ok_iff, unitRule_eq_ok_iff]
  have hdisjoint : c.terminals.filter (· ∈ c.nonterminals) = [] ↔
      c.terminals.Disjoint c.nonterminals := by
    simp [List.filter_eq_nil_iff, List.Disjoint]
  rw [hdisjoint]
  constructor
  · rintro ⟨⟨hn, hne⟩, ⟨ht, hlen⟩, hb, ⟨hs, hstart⟩, hbin, hu⟩
    refine ⟨⟨hs, ht, hn, hbin.imp fun _ _ => And.left, hu.imp fun _ _ => And.left⟩,
      ⟨⟨hb, hstart, fun r hr => ?_, fun r hr => ?_⟩, hne, hlen⟩⟩
    · obtain ⟨-, -, -, hl, hm, hr⟩ := exists_of_mem_right hbin hr
      exact ⟨hl, hm.1, hr.1⟩
    · obtain ⟨-, -, -, hm⟩ := exists_of_mem_right hu hr
      exact hm
  · rintro ⟨hmeans, hc⟩
    refine ⟨⟨hmeans.nonterminals, hc.ne_empty⟩, ⟨hmeans.terminals, hc.length_eq⟩, hc.disjoint,
      ⟨hmeans.start, hc.start_mem⟩, ?_, ?_⟩
    · refine forall₂_and_right hmeans.binary fun r hr => ?_
      obtain ⟨hl, hm, hr⟩ := hc.binary_mem r hr
      exact ⟨hl, ⟨hm, fun h => hc.disjoint h hm⟩, hr, fun h => hc.disjoint h hr⟩
    · exact forall₂_and_right hmeans.unit hc.unit_mem

theorem rightUnique_binarySays : Relator.RightUnique BinarySays := by
  intro rule r r' h h'
  have hparts := Option.some.inj (h.symm.trans h')
  simp only [List.cons.injEq, Value.str.injEq, and_true] at hparts
  exact Prod.ext hparts.1 (Prod.ext hparts.2.1 hparts.2.2)

theorem rightUnique_unitSays : Relator.RightUnique UnitSays := by
  intro rule r r' h h'
  have hparts := Option.some.inj (h.symm.trans h')
  simp only [List.cons.injEq, Value.str.injEq, and_true] at hparts
  exact Prod.ext hparts.1 hparts.2

/-- A description says one thing at most. -/
theorem Says.eq {c' : Declarations String} (h : d.Says c) (h' : d.Says c') : c = c' := by
  obtain ⟨start, terminals, nonterminals, binary, unit⟩ := c
  obtain ⟨start', terminals', nonterminals', binary', unit'⟩ := c'
  obtain rfl : start = start' := Value.str.inj (h.start.symm.trans h'.start)
  have hmap : Function.Injective (List.map Value.str) :=
    List.map_injective_iff.2 fun _ _ => Value.str.inj
  obtain rfl : terminals = terminals' := hmap (h.terminals.symm.trans h'.terminals)
  obtain rfl : nonterminals = nonterminals' := hmap (h.nonterminals.symm.trans h'.nonterminals)
  obtain rfl : binary = binary' := rightUnique_binarySays.forall₂ h.binary h'.binary
  obtain rfl : unit = unit' := rightUnique_unitSays.forall₂ h.unit h'.unit
  rfl

/-- The values of a description are those of a grammar in Chomsky normal form. -/
structure IsWellFormed (d : Description) : Prop where
  nonterminals : ∀ v ∈ d.nonterminals, ∃ s, v = .str s ∧ s ≠ ""
  terminals : ∀ v ∈ d.terminals, ∃ s, v = .str s ∧ s.length = 1
  disjoint : ∀ v ∈ d.terminals, v ∉ d.nonterminals
  start_mem : d.start ∈ d.nonterminals
  binary : ∀ rule ∈ d.binary, ∃ a b c, rule.elements? = some [a, b, c] ∧
    a ∈ d.nonterminals ∧ b ∈ d.nonterminals ∧ c ∈ d.nonterminals
  unit : ∀ rule ∈ d.unit, ∃ a t, rule.elements? = some [a, t] ∧
    a ∈ d.nonterminals ∧ t ∈ d.terminals

theorem str_mem_map_str {ss : List String} {s : String} : Value.str s ∈ ss.map Value.str ↔ s ∈ ss :=
  List.mem_map_of_injective fun _ _ => Value.str.inj

theorem exists_map_str {vs : List Value} {p : String → Prop} (h : ∀ v ∈ vs, ∃ s, v = .str s ∧ p s) :
    ∃ ss : List String, vs = ss.map .str ∧ ∀ s ∈ ss, p s := by
  obtain ⟨ss, hss, hp⟩ := exists_forall₂ h
  exact ⟨ss, map_str_iff.2 hss, hp⟩

/-- What consistent declarations say is well-formed. -/
theorem Says.isWellFormed (h : d.Says c) (hc : c.IsConsistent) : d.IsWellFormed := by
  have hn := h.nonterminals
  have ht := h.terminals
  refine ⟨?_, ?_, ?_, ?_, fun rule hr => ?_, fun rule hr => ?_⟩
  · rw [hn, List.forall_mem_map]
    exact fun s hs => ⟨s, rfl, hc.ne_empty s hs⟩
  · rw [ht, List.forall_mem_map]
    exact fun s hs => ⟨s, rfl, hc.length_eq s hs⟩
  · rw [ht, hn, List.forall_mem_map]
    exact fun s hs hm => hc.disjoint hs (str_mem_map_str.1 hm)
  · rw [hn, h.start]
    exact str_mem_map_str.2 hc.start_mem
  · obtain ⟨r, hr, he⟩ := exists_of_mem_left h.binary hr
    obtain ⟨hleft, hfirst, hsecond⟩ := hc.binary_mem r hr
    rw [hn]
    exact ⟨_, _, _, he, str_mem_map_str.2 hleft, str_mem_map_str.2 hfirst,
      str_mem_map_str.2 hsecond⟩
  · obtain ⟨r, hr, he⟩ := exists_of_mem_left h.unit hr
    obtain ⟨hleft, hright⟩ := hc.unit_mem r hr
    rw [hn, ht]
    exact ⟨_, _, he, str_mem_map_str.2 hleft, str_mem_map_str.2 hright⟩

/-- A well-formed description says something consistent. -/
theorem IsWellFormed.exists_consistent (h : d.IsWellFormed) : ∃ c, d.Says c ∧ c.IsConsistent := by
  obtain ⟨hnames, hchars, hdisjoint, hstart, hbinary, hunit⟩ := h
  obtain ⟨nonterminals, hn, hne⟩ := exists_map_str hnames
  obtain ⟨terminals, ht, hlen⟩ := exists_map_str hchars
  simp only [hn, ht, List.mem_map] at hstart hbinary hunit
  obtain ⟨start, hstart, hs⟩ := hstart
  have hb : ∀ rule ∈ d.binary, ∃ r, BinarySays rule r ∧
      r.1 ∈ nonterminals ∧ r.2.1 ∈ nonterminals ∧ r.2.2 ∈ nonterminals := by
    intro rule hr
    obtain ⟨_, _, _, he, ⟨a, ha, rfl⟩, ⟨b, hb, rfl⟩, ⟨c, hc, rfl⟩⟩ := hbinary rule hr
    exact ⟨(a, b, c), he, ha, hb, hc⟩
  have hu : ∀ rule ∈ d.unit, ∃ r, UnitSays rule r ∧ r.1 ∈ nonterminals ∧ r.2 ∈ terminals := by
    intro rule hr
    obtain ⟨_, _, he, ⟨a, ha, rfl⟩, ⟨t, ht, rfl⟩⟩ := hunit rule hr
    exact ⟨(a, t), he, ha, ht⟩
  obtain ⟨binary, hb, hbmem⟩ := exists_forall₂ hb
  obtain ⟨unit, hu, humem⟩ := exists_forall₂ hu
  refine ⟨⟨start, terminals, nonterminals, binary, unit⟩, ⟨hs.symm, ht, hn, hb, hu⟩,
    ⟨fun s hst hsn => ?_, hstart, hbmem, humem⟩, hne, hlen⟩
  rw [hn, ht] at hdisjoint
  exact hdisjoint (.str s) (str_mem_map_str.2 hst) (str_mem_map_str.2 hsn)

/-- A description passes the checks exactly when it is well-formed. -/
theorem exists_check_eq_ok_iff : (∃ c, d.check = .ok c) ↔ d.IsWellFormed := by
  constructor
  · rintro ⟨c, hc⟩
    obtain ⟨hmeans, hconsistent⟩ := check_eq_ok_iff.1 hc
    exact hmeans.isWellFormed hconsistent
  · intro h
    obtain ⟨c, hc⟩ := h.exists_consistent
    exact ⟨c, check_eq_ok_iff.2 hc⟩

end Description

section Failing

variable {α β : Type} {x : Except BuildError α}

/-- A check that fails only because a flaw was found. -/
def FailsByFlaw (x : Except BuildError α) : Prop :=
  ∀ e, x = .error e → ∃ flaw, e = .flawed flaw

theorem FailsByFlaw.ok (a : α) : FailsByFlaw (.ok a) := by
  intro e h
  cases h

theorem FailsByFlaw.flawed (flaw : Flaw) : FailsByFlaw (.error (.flawed flaw) : Except _ α) := by
  intro e h
  cases h
  exact ⟨flaw, rfl⟩

theorem FailsByFlaw.ite {p : Prop} [Decidable p] {y : Except BuildError α} (hx : FailsByFlaw x)
    (hy : FailsByFlaw y) : FailsByFlaw (if p then x else y) := by
  split
  · exact hx
  · exact hy

theorem FailsByFlaw.bind {f : α → Except BuildError β} (hx : FailsByFlaw x)
    (hf : ∀ a, FailsByFlaw (f a)) : FailsByFlaw (x >>= f) := by
  cases x with
  | error e =>
    intro e' h
    cases h
    exact hx e rfl
  | ok a => exact hf a

theorem FailsByFlaw.mapM {f : α → Except BuildError β} {as : List α}
    (hf : ∀ a ∈ as, FailsByFlaw (f a)) : FailsByFlaw (as.mapM f) := by
  induction as with
  | nil => exact .ok []
  | cons a as ih =>
    rw [List.mapM_cons]
    refine (hf a List.mem_cons_self).bind fun b => ?_
    exact (ih fun x hx => hf x (List.mem_cons_of_mem a hx)).bind fun bs => .ok _

end Failing

namespace Description

section Failing

variable {terminals nonterminals names : List String}

theorem failsByFlaw_nonterminalName (v : Value) : FailsByFlaw (nonterminalName v) := by
  unfold nonterminalName
  split
  · exact .ite (.flawed _) (.ok _)
  · exact .flawed _

theorem failsByFlaw_terminalName (v : Value) : FailsByFlaw (terminalName v) := by
  unfold terminalName
  split
  · exact .ite (.ok _) (.flawed _)
  · exact .flawed _

theorem failsByFlaw_nameAmong (flaw : Flaw) (v : Value) :
    FailsByFlaw (nameAmong names flaw v) := by
  unfold nameAmong
  split
  · exact .ite (.ok _) (.flawed _)
  · exact .flawed _

theorem failsByFlaw_binaryRight (parts : List Value) (v : Value) :
    FailsByFlaw (binaryRight terminals nonterminals parts v) :=
  (failsByFlaw_nameAmong _ v).bind fun _ => .ite (.flawed _) (.ok _)

/-- The length of a sequence can be taken. -/
theorem failsByFlaw_sized {rule : Value} {parts : List Value} (h : rule.elements? = some parts) :
    FailsByFlaw (rule.sized.mapError .mistyped) := by
  rw [Value.sized_eq_ok_iff.2 h]
  exact .ok parts

theorem failsByFlaw_binaryRule {rule : Value} {parts : List Value}
    (h : rule.elements? = some parts) : FailsByFlaw (binaryRule terminals nonterminals rule) := by
  refine (failsByFlaw_sized h).bind fun parts => ?_
  split
  · refine (failsByFlaw_nameAmong _ _).bind fun _ => ?_
    refine (failsByFlaw_binaryRight _ _).bind fun _ => ?_
    exact (failsByFlaw_binaryRight _ _).bind fun _ => .ok _
  · exact .flawed _

theorem failsByFlaw_unitRule {rule : Value} {parts : List Value}
    (h : rule.elements? = some parts) : FailsByFlaw (unitRule terminals nonterminals rule) := by
  refine (failsByFlaw_sized h).bind fun parts => ?_
  split
  · refine (failsByFlaw_nameAmong _ _).bind fun _ => ?_
    exact (failsByFlaw_nameAmong _ _).bind fun _ => .ite (.ok _) (.flawed _)
  · exact .flawed _

end Failing

/-- Whether every rule of a description is a sequence. -/
def HasSequences (d : Description) : Prop :=
  ∀ rule ∈ d.binary ++ d.unit, ∃ parts, rule.elements? = some parts

/-- A description whose rules are sequences is refused for a flaw only. -/
theorem HasSequences.failsByFlaw_check {d : Description} (h : d.HasSequences) :
    FailsByFlaw d.check := by
  refine (FailsByFlaw.mapM fun v _ => failsByFlaw_nonterminalName v).bind fun _ => ?_
  refine (FailsByFlaw.mapM fun v _ => failsByFlaw_terminalName v).bind fun _ => ?_
  dsimp only
  split
  · exact .flawed _
  · refine (failsByFlaw_nameAmong _ _).bind fun _ => ?_
    refine (FailsByFlaw.mapM fun rule hr => ?_).bind fun _ => ?_
    · obtain ⟨parts, hp⟩ := h rule (List.mem_append_left _ hr)
      exact failsByFlaw_binaryRule hp
    refine (FailsByFlaw.mapM fun rule hr => ?_).bind fun _ => .ok _
    obtain ⟨parts, hp⟩ := h rule (List.mem_append_right _ hr)
    exact failsByFlaw_unitRule hp

end Description

end ChartParsing
