import ChartParsing.NameTable.Register
import ChartParsing.Proofs.Naming
import ChartParsing.Proofs.Steps
import Mathlib.Data.Rat.Cast.Order
import Mathlib.Tactic.Positivity

/-!
# Names and handles under every run of calls

In a table whose names are distinct, names and handles are inverse to each other
(`NameTable.isOneToOne_of_nodup`). No call gives a name a second handle, so this holds after
every run of calls on a fresh table, and a register that keeps a dictionary beside the list
answers as the table does (`NameRegister.Keeps.applyAll`).
-/

namespace ChartParsing

/-- The number that a value is; the truth values count as zero and one. -/
def Value.rational? : Value → Option ℚ
  | bool b => some (if b then 1 else 0)
  | int n => some n
  | decimal mantissa places => some (mantissa / 10 ^ places)
  | _ => none

namespace NameTable

variable {t : NameTable} {name : String} {handle : Symbol}

/-- Names and handles are inverse to each other, and a value is unknown when it is a number
that was not given out. -/
structure IsOneToOne (t : NameTable) : Prop where
  distinct : t.names.Nodup
  given_out : ∀ handle : Symbol,
    (∃ name, t.find? name = some handle) ↔ 0 ≤ handle ∧ handle < t.size
  inverse : ∀ name handle, t.find? name = some handle ↔ t.resolve handle = .ok name
  resolve_intern : ∀ name,
    ((intern name).run t).2.resolve ((intern name).run t).1 = .ok name
  intern_resolve : ∀ handle : Symbol, 0 ≤ handle → handle < t.size →
    ∃ name, t.resolve handle = .ok name ∧ (intern name).run t = (handle, t)
  unknown : ∀ v, (∃ cause, t.resolveValue v = .error (.unknown cause)) ↔
    ∃ q, v.rational? = some q ∧ ¬ (0 ≤ q ∧ q < t.size)

theorem resolve?_eq_none_iff : t.resolve? handle = none ↔ ¬ (0 ≤ handle ∧ handle < t.size) := by
  rw [resolve?, ite_eq_right_iff, List.getElem?_eq_none_iff, not_and, not_lt]
  refine forall_congr' fun hpos => ?_
  rw [Int.le_toNat hpos]
  rfl

/-- A handle has a name when it is in range. -/
theorem exists_resolve_iff :
    (∃ name, t.resolve handle = .ok name) ↔ 0 ≤ handle ∧ handle < t.size := by
  rw [← not_iff_not, ← resolve?_eq_none_iff, resolve]
  cases t.resolve? handle <;> simp

/-- Where no name stands twice, the name of a handle has that handle. -/
theorem find?_eq_some_iff_of_nodup (h : t.names.Nodup) :
    t.find? name = some handle ↔ t.resolve handle = .ok name := by
  refine ⟨resolve_of_find?, fun hr => ?_⟩
  obtain ⟨i, rfl, hi⟩ := resolve_eq_ok_iff.1 hr
  obtain ⟨hlt, rfl⟩ := List.getElem?_eq_some_iff.1 hi
  refine find?_eq_some_iff.2 ⟨i, rfl, List.idxOf?_eq_some_iff.2 ⟨hlt, rfl, fun j hj he => ?_⟩⟩
  exact hj.ne ((h.getElem_inj_iff).1 he)

theorem decimal_in_range_iff {mantissa : Int} {places n : Nat} :
    (0 ≤ (mantissa : ℚ) / 10 ^ places ∧ (mantissa : ℚ) / 10 ^ places < n) ↔
      0 ≤ mantissa ∧ mantissa < n * Int.pow 10 places := by
  have hpos : (0 : ℚ) < 10 ^ places := by positivity
  have hpow : Int.pow 10 places = 10 ^ places := rfl
  rw [le_div_iff₀ hpos, div_lt_iff₀ hpos, hpow]
  norm_cast
  simp

/-- A whole number is out of range when no name has it. -/
theorem out_of_range_iff {v : Value} (hv : v.rational? = some (handle : ℚ)) :
    (∃ q, v.rational? = some q ∧ ¬ (0 ≤ q ∧ q < t.size)) ↔ t.resolve? handle = none := by
  rw [resolve?_eq_none_iff, hv]
  simp only [Option.some.injEq, exists_eq_left']
  norm_cast

/-- A value is unknown when it is a number out of range. -/
theorem exists_unknown_iff {v : Value} : (∃ cause, t.resolveValue v = .error (.unknown cause)) ↔
    ∃ q, v.rational? = some q ∧ ¬ (0 ≤ q ∧ q < t.size) := by
  cases v with
  | int n =>
    rw [out_of_range_iff (v := .int n) rfl, resolveValue, resolve]
    cases t.resolve? n <;> simp
  | bool b =>
    have hv : (Value.bool b).rational? = some (((if b then 1 else 0 : Symbol)) : ℚ) := by
      cases b <;> simp [Value.rational?]
    rw [out_of_range_iff hv, resolveValue]
    cases t.resolve? (if b then 1 else 0) <;> simp
  | decimal mantissa places =>
    simp only [Value.rational?, Option.some.injEq, exists_eq_left', decimal_in_range_iff]
    rw [resolveValue]
    by_cases h : 0 ≤ mantissa ∧ mantissa < t.size * Int.pow 10 places
    · rw [if_pos h]
      exact iff_of_false (by simp) (not_not_intro h)
    · rw [if_neg h]
      exact iff_of_true ⟨_, rfl⟩ h
  | null | str | list | tuple | record => simp [resolveValue, Value.rational?]

theorem isOneToOne_of_nodup (h : t.names.Nodup) : t.IsOneToOne where
  distinct := h
  given_out handle := by
    rw [← exists_resolve_iff]
    exact exists_congr fun name => find?_eq_some_iff_of_nodup h
  inverse name handle := find?_eq_some_iff_of_nodup h
  resolve_intern name := resolve_of_find? ((Settles.intern name t).2 _ (.refl _))
  intern_resolve handle hpos hlt := by
    obtain ⟨name, hr⟩ := exists_resolve_iff.2 ⟨hpos, hlt⟩
    exact ⟨name, hr, run_intern_of_find? ((find?_eq_some_iff_of_nodup h).2 hr)⟩
  unknown v := exists_unknown_iff

/-- A new name gets the next handle, and every other name keeps its own. -/
theorem find?_append_new (h : t.find? name = none) (other : String) :
    find? ⟨t.names ++ [name]⟩ other =
      if other = name then some (t.size : Symbol) else t.find? other := by
  by_cases he : other = name
  · rw [if_pos he, he]
    have hrun := (Settles.intern name t).2 _ (.refl _)
    rwa [run_intern_of_new h] at hrun
  · rw [if_neg he]
    cases ho : t.find? other with
    | some handle => exact find?_of_growsTo (List.prefix_append t.names [name]) ho
    | none =>
      rw [find?_eq_none_iff] at ho ⊢
      simp [ho, he]

/-- Only `intern` of a name adds to the table, and it adds that name. -/
theorem apply_snd (t : NameTable) (call : NameCall) :
    (t.apply call).2.names = FirstSeen.addAll t.names call.interned?.toList := by
  cases call with
  | intern v =>
    cases v with
    | str name => exact congrArg names (run_intern_snd name t)
    | _ => rfl
  | _ => rfl

theorem applyAll_cons (t : NameTable) (call : NameCall) (rest : List NameCall) :
    t.applyAll (call :: rest) =
      ((t.apply call).1 :: ((t.apply call).2.applyAll rest).1,
        ((t.apply call).2.applyAll rest).2) := rfl

/-- After a run of calls the table has the names that were interned, in order of first
appearance, behind those that it had before. -/
theorem applyAll_snd (t : NameTable) (calls : List NameCall) :
    (t.applyAll calls).2.names =
      FirstSeen.addAll t.names (calls.filterMap NameCall.interned?) := by
  induction calls generalizing t with
  | nil => rfl
  | cons call rest ih =>
    have hcons : (call :: rest).filterMap NameCall.interned? =
        call.interned?.toList ++ rest.filterMap NameCall.interned? := by
      cases h : call.interned? <;> simp [h]
    rw [applyAll_cons, ih, apply_snd, hcons, FirstSeen.addAll_append]

/-- After a run of calls on the table of some names it has these and those that were interned, in
order of first appearance. -/
theorem names_applyAll_ofList (init : List String) (calls : List NameCall) :
    ((ofList init).applyAll calls).2.names =
      FirstSeen.ofList (init ++ calls.filterMap NameCall.interned?) := by
  rw [applyAll_snd, names_ofList, FirstSeen.ofList, FirstSeen.ofList, FirstSeen.addAll_append]

theorem applyAll_append_snd (t : NameTable) (before after : List NameCall) :
    (t.applyAll (before ++ after)).2 = ((t.applyAll before).2.applyAll after).2 := by
  induction before generalizing t with
  | nil => rfl
  | cons call before ih => exact ih (t.apply call).2

/-- A table only grows under calls. -/
theorem growsTo_applyAll (t : NameTable) (calls : List NameCall) :
    t.GrowsTo (t.applyAll calls).2 := by
  rw [GrowsTo, applyAll_snd]
  exact FirstSeen.prefix_addAll _ _

/-- A call that interns no name leaves the table as it was. -/
theorem apply_snd_of_not_interned {call : NameCall} (h : call.interned? = none) :
    (t.apply call).2 = t := by
  have hnames := apply_snd t call
  rw [h] at hnames
  exact congrArg NameTable.mk hnames

/-- A call that fails leaves the table as it was. -/
theorem apply_snd_of_error {call : NameCall} {cause : LookupError}
    (h : (t.apply call).1 = .error cause) : (t.apply call).2 = t := by
  cases call with
  | intern v =>
    cases v with
    | str name => cases h
    | _ => rfl
  | _ => rfl

theorem ofValues_strs (names : List String) : ofValues (names.map .str) = .ok (ofList names) := by
  have h : ∀ (names : List String) (t : NameTable),
      (names.map Value.str).foldlM (fun t v => (·.2) <$> t.internValue v) t =
        .ok (names.foldl add t) := by
    intro names
    induction names with
    | nil => exact fun t => rfl
    | cons name names ih =>
      intro t
      rw [List.foldl_cons, ← run_intern_snd]
      exact ih _
  exact h names empty

end NameTable

namespace NameRegister

variable {r : NameRegister} {t : NameTable}

/-- The list of a register is that of a table, and the dictionary has the handles that the
table finds. -/
structure Keeps (r : NameRegister) (t : NameTable) : Prop where
  strings : r.strings = t.names
  handles : ∀ name, r.handles.get? name = t.find? name

namespace Keeps

theorem empty : NameRegister.empty.Keeps .empty := ⟨rfl, fun _ => rfl⟩

/-- Entering a new name in the list and in the dictionary gives it the handle that the table
gives it. -/
theorem intern (h : r.Keeps t) (name : String) :
    (r.intern name).1 = ((NameTable.intern name).run t).1 ∧
      (r.intern name).2.Keeps ((NameTable.intern name).run t).2 := by
  unfold NameRegister.intern
  rw [h.handles]
  cases hf : t.find? name with
  | some handle =>
    rw [NameTable.run_intern_of_find? hf]
    exact ⟨rfl, h⟩
  | none =>
    rw [NameTable.run_intern_of_new hf, h.strings]
    refine ⟨rfl, rfl, fun other => ?_⟩
    rw [NameTable.find?_append_new hf]
    by_cases he : other = name
    · rw [if_pos he, he, Bindings.get?_set_self]
      rfl
    · rw [if_neg he, Bindings.get?_set_of_ne _ _ he, h.handles]

/-- A list of names makes a register that keeps the table of the list. -/
theorem ofValues_strs (names : List String) :
    ∃ r, NameRegister.ofValues (names.map .str) = .ok r ∧ r.Keeps (.ofList names) := by
  have run : ∀ (names : List String) (r : NameRegister) (t : NameTable), r.Keeps t →
      ∃ r', (names.map Value.str).foldlM (fun r v => (·.2) <$> r.internValue v) r = .ok r' ∧
        r'.Keeps (names.foldl NameTable.add t) := by
    intro names
    induction names with
    | nil => exact fun r t h => ⟨r, rfl, h⟩
    | cons name names ih =>
      intro r t h
      have hnext := (h.intern name).2
      rw [NameTable.run_intern_snd] at hnext
      exact ih _ _ hnext
  exact run names .empty .empty .empty

/-- A register and the table that it keeps give the same answer to a call, and the register
keeps the table after it. -/
theorem apply (h : r.Keeps t) (call : NameCall) :
    (r.apply call).1 = (t.apply call).1 ∧ (r.apply call).2.Keeps (t.apply call).2 := by
  have hfind : ∀ v, r.findValue? v = t.findValue? v := by
    intro v
    unfold NameRegister.findValue? NameTable.findValue?
    rw [funext h.handles]
  have hnames : (⟨r.strings⟩ : NameTable) = t := congrArg NameTable.mk h.strings
  cases call with
  | intern v =>
    cases v with
    | str name =>
      obtain ⟨handle, after⟩ := h.intern name
      exact ⟨congrArg (fun x => Except.ok (NameAnswer.handle x)) handle, after⟩
    | _ => exact ⟨rfl, h⟩
  | resolve v =>
    refine ⟨?_, h⟩
    show (r.resolveValue v).map NameAnswer.name = (t.resolveValue v).map .name
    rw [NameRegister.resolveValue, hnames]
  | contains v =>
    refine ⟨?_, h⟩
    show ((r.findValue? v).map NameAnswer.ofFound).mapError _ = _
    rw [hfind]
    rfl
  | find v other =>
    refine ⟨?_, h⟩
    show ((r.findValue? v).map (NameAnswer.ofFoundOr other)).mapError _ = _
    rw [hfind]
    rfl
  | size =>
    refine ⟨?_, h⟩
    show Except.ok (NameAnswer.size r.strings.length) = .ok (.size t.names.length)
    rw [h.strings]
  | list =>
    refine ⟨?_, h⟩
    show Except.ok (NameAnswer.list r.strings) = .ok (.list t.names)
    rw [h.strings]

/-- A register answers every run of calls as the table that it keeps. -/
theorem applyAll (h : r.Keeps t) (calls : List NameCall) :
    (r.applyAll calls).1 = (t.applyAll calls).1 ∧
      (r.applyAll calls).2.Keeps (t.applyAll calls).2 := by
  induction calls generalizing r t with
  | nil => exact ⟨rfl, h⟩
  | cons call rest ih =>
    obtain ⟨hanswer, hafter⟩ := h.apply call
    obtain ⟨hanswers, hend⟩ := ih hafter
    exact ⟨congrArg₂ List.cons hanswer hanswers, hend⟩

end Keeps

end NameRegister

namespace NameTable

/-- After any calls on a table that was made from any names: names and handles are inverse to
each other, the handles are the numbers below the size, and `resolve` refuses as unknown the
numbers out of range and no other value. The table is the list of the names ever interned, in
order of first appearance. The table before any of the calls is at the front of it and handles
kept their names. Look-ups and failing calls change nothing. A dictionary and a list that are
written one after the other give the same answers and stay in agreement with the table. -/
theorem one_to_one_after_calls (init : List String) (calls : List NameCall) :
    ∃ start answers t, ofValues (init.map .str) = .ok start ∧
      start.applyAll calls = (answers, t) ∧
      t.IsOneToOne ∧
      t.names = FirstSeen.ofList (init ++ calls.filterMap NameCall.interned?) ∧
      (∀ before after, calls = before ++ after → (start.applyAll before).2.GrowsTo t ∧
        ∀ handle name, (start.applyAll before).2.resolve handle = .ok name →
          t.resolve handle = .ok name ∧ t.find? name = some handle) ∧
      (∀ call, call.interned? = none → (t.apply call).2 = t) ∧
      (∀ call cause, (t.apply call).1 = .error cause → (t.apply call).2 = t) ∧
      ∃ register r, NameRegister.ofValues (init.map .str) = .ok register ∧
        register.applyAll calls = (answers, r) ∧ r.Keeps t := by
  have hnames := names_applyAll_ofList init calls
  have hnodup : ((ofList init).applyAll calls).2.names.Nodup :=
    hnames ▸ FirstSeen.nodup_ofList _
  obtain ⟨register, hregister, hkeeps⟩ := NameRegister.Keeps.ofValues_strs init
  obtain ⟨hanswers, hend⟩ := hkeeps.applyAll calls
  refine ⟨ofList init, _, _, ofValues_strs init, rfl, isOneToOne_of_nodup hnodup, hnames, ?_,
    fun call => apply_snd_of_not_interned, fun call cause => apply_snd_of_error,
    register, _, hregister, Prod.ext hanswers rfl, hend⟩
  rintro before after rfl
  have hgrows : ((ofList init).applyAll before).2.GrowsTo
      ((ofList init).applyAll (before ++ after)).2 := by
    rw [applyAll_append_snd]
    exact growsTo_applyAll _ after
  refine ⟨hgrows, fun handle name hr => ?_⟩
  have hlater := resolve_of_growsTo hgrows hr
  exact ⟨hlater, (find?_eq_some_iff_of_nodup hnodup).2 hlater⟩

end NameTable

end ChartParsing
