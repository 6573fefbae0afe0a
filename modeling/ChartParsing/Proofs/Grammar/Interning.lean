import ChartParsing.Grammar.Description
import ChartParsing.Proofs.Grammar.Indexes
import ChartParsing.Proofs.Grammar.NormalForm

/-!
# Which names get handles

`Adds` says which names a run gives handles to, whatever table it starts from: the new table is
the old one with these names at the end, as far as they are new. Declarations are interned in
the order start symbol, terminals, nonterminals, rules; those of sound declarations use declared
names only, so that their rules add nothing (`names_intern`).
-/

namespace ChartParsing

namespace FirstSeen

variable {α : Type} [DecidableEq α] {seen as : List α}

theorem addAll_of_forall_mem (h : ∀ a ∈ as, a ∈ seen) : addAll seen as = seen := by
  induction as with
  | nil => rfl
  | cons a as ih =>
    obtain ⟨ha, has⟩ := List.forall_mem_cons.1 h
    rw [addAll_cons, add_of_mem ha, ih has]

theorem add_append_filter (seen new : List α) (a : α) :
    add (seen ++ new.filter (· ∉ seen)) a = seen ++ (add new a).filter (· ∉ seen) := by
  by_cases hs : a ∈ seen <;> by_cases hn : a ∈ new <;> simp [add, hs, hn]

/-- What is added to a list are the new elements in order of first appearance. -/
theorem addAll_eq_append_filter (seen as : List α) :
    addAll seen as = seen ++ (ofList as).filter (· ∉ seen) := by
  have h : ∀ as new : List α, addAll (seen ++ new.filter (· ∉ seen)) as =
      seen ++ (addAll new as).filter (· ∉ seen) := by
    intro as
    induction as with
    | nil => exact fun new => rfl
    | cons a as ih =>
      intro new
      rw [addAll_cons, addAll_cons, add_append_filter, ih]
  rw [ofList, ← h as [], List.filter_nil, List.append_nil]

theorem ofList_ofList (as : List α) : ofList (ofList as) = ofList as :=
  ofList_of_nodup (nodup_ofList as)

theorem addAll_ofList (seen as : List α) : addAll seen (ofList as) = addAll seen as := by
  rw [addAll_eq_append_filter, ofList_ofList, ← addAll_eq_append_filter]

theorem ofList_cons_append (a : α) (as bs : List α) :
    ofList (a :: (as ++ bs)) = addAll (addAll [a] (ofList as)) (ofList bs) := by
  rw [addAll_ofList, addAll_ofList, ← addAll_append]
  rfl

end FirstSeen

/-- A run gives handles to names, in this order, as far as they have none. -/
def Adds {α : Type} (run : StateM NameTable α) (names : List String) : Prop :=
  ∀ t : NameTable, (run.run t).2.names = FirstSeen.addAll t.names names

namespace Adds

variable {α β : Type} {run : StateM NameTable α} {next : α → StateM NameTable β}
  {names later : List String}

theorem intern (name : String) : Adds (NameTable.intern name) [name] := by
  intro t
  rw [NameTable.run_intern_snd]
  rfl

theorem pure (a : α) : Adds (Pure.pure a) [] :=
  fun _ => rfl

theorem bind (h : Adds run names) (hn : ∀ a, Adds (next a) later) :
    Adds (run >>= next) (names ++ later) := by
  intro t
  have hnext : ((run >>= next).run t).2 = ((next (run.run t).1).run (run.run t).2).2 := rfl
  rw [hnext, hn, h, FirstSeen.addAll_append]

/-- A run over a list adds what it adds for each element. -/
theorem mapM {next : α → StateM NameTable β} {names : α → List String}
    (h : ∀ a, Adds (next a) (names a)) (as : List α) :
    Adds (as.mapM next) (as.flatMap names) := by
  induction as with
  | nil => exact pure []
  | cons a as ih =>
    rw [List.mapM_cons, List.flatMap_cons]
    refine (h a).bind fun b => ?_
    rw [← List.append_nil (as.flatMap names)]
    exact ih.bind fun bs => pure (b :: bs)

end Adds

namespace Declarations

/-- The names that declarations declare, in the order in which they get handles. -/
def declared (d : Declarations String) : List String :=
  d.start :: (d.terminals ++ d.nonterminals)

/-- The names in the rules of declarations. -/
def used (d : Declarations String) : List String :=
  (d.binary.flatMap fun r => [r.1, r.2.1, r.2.2]) ++ d.unit.flatMap fun r => [r.1, r.2]

theorem adds_intern (d : Declarations String) : Adds d.intern (d.declared ++ d.used) := by
  have hnames : ∀ names : List String, Adds (names.mapM NameTable.intern) names := fun names => by
    simpa using Adds.mapM .intern names
  have hbinary : ∀ r : String × String × String, Adds (do
      return (← NameTable.intern r.1, ← NameTable.intern r.2.1, ← NameTable.intern r.2.2))
      ([r.1] ++ ([r.2.1] ++ ([r.2.2] ++ []))) := fun r =>
    .bind (.intern r.1) fun _ => .bind (.intern r.2.1) fun _ => .bind (.intern r.2.2) fun _ =>
      .pure _
  have hunit : ∀ r : String × String, Adds (do
      return (← NameTable.intern r.1, ← NameTable.intern r.2)) ([r.1] ++ ([r.2] ++ [])) := fun r =>
    .bind (.intern r.1) fun _ => .bind (.intern r.2) fun _ => .pure _
  have hall : Adds d.intern ([d.start] ++ (d.terminals ++ (d.nonterminals ++
      ((d.binary.flatMap fun r => [r.1] ++ ([r.2.1] ++ ([r.2.2] ++ []))) ++
        ((d.unit.flatMap fun r => [r.1] ++ ([r.2] ++ [])) ++ []))))) := by
    unfold intern
    refine Adds.bind (.intern d.start) fun start => ?_
    refine Adds.bind (hnames d.terminals) fun terminals => ?_
    refine Adds.bind (hnames d.nonterminals) fun nonterminals => ?_
    refine Adds.bind (.mapM hbinary d.binary) fun binary => ?_
    exact Adds.bind (.mapM hunit d.unit) fun unit => .pure _
  simpa [declared, used] using hall

/-- The rules of sound declarations use declared names only. -/
theorem IsSound.mem_declared {d : Declarations String} (h : d.IsSound) {s : String}
    (hs : s ∈ d.used) : s ∈ d.declared := by
  have hn : ∀ {s}, s ∈ d.nonterminals → s ∈ d.declared :=
    fun hs => List.mem_cons_of_mem _ (List.mem_append_right _ hs)
  have ht : ∀ {s}, s ∈ d.terminals → s ∈ d.declared :=
    fun hs => List.mem_cons_of_mem _ (List.mem_append_left _ hs)
  rcases List.mem_append.1 hs with hs | hs
  · obtain ⟨r, hr, hs⟩ := List.mem_flatMap.1 hs
    obtain ⟨hleft, hfirst, hsecond⟩ := h.binary_mem r hr
    simp only [List.mem_cons, List.not_mem_nil, or_false] at hs
    rcases hs with rfl | rfl | rfl
    exacts [hn hleft, hn hfirst, hn hsecond]
  · obtain ⟨r, hr, hs⟩ := List.mem_flatMap.1 hs
    obtain ⟨hleft, hright⟩ := h.unit_mem r hr
    simp only [List.mem_cons, List.not_mem_nil, or_false] at hs
    rcases hs with rfl | rfl
    exacts [hn hleft, ht hright]

/-- Sound declarations give handles to the names that they declare, and no rule gives one. -/
theorem IsSound.names_intern {d : Declarations String} (h : d.IsSound) (t : NameTable) :
    (d.intern.run t).2.names = t.names ++ (FirstSeen.ofList d.declared).filter (· ∉ t.names) := by
  rw [adds_intern, FirstSeen.addAll_append, FirstSeen.addAll_of_forall_mem,
    FirstSeen.addAll_eq_append_filter]
  exact fun s hs => FirstSeen.mem_addAll.2 (.inr (h.mem_declared hs))

end Declarations

end ChartParsing
