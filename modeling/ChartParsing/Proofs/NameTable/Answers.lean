import ChartParsing.Proofs.NameTable.Runs

/-!
# What a table of names answers

Every answer can be read off the list of the names that a table has: a name has its place in the
list as its handle, and a new name gets the next place (`NameTable.apply_fst_eq_iff`). So the
answers to a run of calls can be read off the names that were interned before each of them, and a
register that keeps a dictionary beside the list gives the same answers
(`NameTable.answers_of_calls`).
-/

namespace ChartParsing

/-- The answer to a call that a list of names determines, each of which has its place as its
handle. -/
inductive IsAnswer (names : List String) : NameCall → Except LookupError NameAnswer → Prop where
  | known {name : String} {i : Nat} (h : names[i]? = some name) :
      IsAnswer names (.intern (.str name)) (.ok (.handle i))
  | new {name : String} (h : name ∉ names) :
      IsAnswer names (.intern (.str name)) (.ok (.handle names.length))
  | notName {v : Value} (h : v.str? = none) :
      IsAnswer names (.intern v) (.error (.mistyped (.notName v)))
  | resolvedInt {i : Nat} {name : String} (h : names[i]? = some name) :
      IsAnswer names (.resolve (.int i)) (.ok (.name name))
  | resolvedBool {b : Bool} {name : String} (h : names[b.toNat]? = some name) :
      IsAnswer names (.resolve (.bool b)) (.ok (.name name))
  /-- A number that is no place of the list is an unknown handle. -/
  | outOfRange {v : Value} {q : ℚ} (hv : v.rational? = some q)
      (h : ¬ (0 ≤ q ∧ q < names.length)) :
      IsAnswer names (.resolve v) (.error (.unknown v))
  /-- A number with decimal places is refused even where it is a place of the list. -/
  | fractional {mantissa : Int} {places : Nat}
      (h : 0 ≤ mantissa ∧ mantissa < names.length * Int.pow 10 places) :
      IsAnswer names (.resolve (.decimal mantissa places))
        (.error (.mistyped (.fractionalHandle (.decimal mantissa places))))
  | notHandle {v : Value} (h : v.rational? = none) :
      IsAnswer names (.resolve v) (.error (.mistyped (.notHandle v)))
  | present {name : String} (h : name ∈ names) :
      IsAnswer names (.contains (.str name)) (.ok (.truth true))
  | absent {v : Value} (hv : v.mutablePart? = none) (h : ∀ name ∈ names, v ≠ .str name) :
      IsAnswer names (.contains v) (.ok (.truth false))
  | found {name : String} {default : Value} {i : Nat} (h : names[i]? = some name) :
      IsAnswer names (.find (.str name) default) (.ok (.handle i))
  | missing {v default : Value} (hv : v.mutablePart? = none) (h : ∀ name ∈ names, v ≠ .str name) :
      IsAnswer names (.find v default) (.ok (.default default))
  /-- Nothing is looked up under a value of which a part can be changed in place. -/
  | unhashableContains {v part : Value} (h : v.mutablePart? = some part) :
      IsAnswer names (.contains v) (.error (.mistyped (.unhashable part)))
  | unhashableFind {v default part : Value} (h : v.mutablePart? = some part) :
      IsAnswer names (.find v default) (.error (.mistyped (.unhashable part)))
  | size : IsAnswer names .size (.ok (.size names.length))
  | list : IsAnswer names .list (.ok (.list names))

namespace NameTable

variable {t : NameTable} {name : String} {v part : Value} {cause : Value}

theorem apply_intern_str (t : NameTable) (name : String) :
    (t.apply (.intern (.str name))).1 = .ok (.handle ((intern name).run t).1) := rfl

theorem apply_resolve (t : NameTable) (v : Value) :
    (t.apply (.resolve v)).1 = (t.resolveValue v).map .name := rfl

theorem apply_contains (t : NameTable) (v : Value) :
    (t.apply (.contains v)).1 = ((t.findValue? v).map .ofFound).mapError .mistyped := rfl

theorem apply_find (t : NameTable) (v default : Value) :
    (t.apply (.find v default)).1 =
      ((t.findValue? v).map (.ofFoundOr default)).mapError .mistyped := rfl

/-- A handle that no name has is refused as it was given. -/
theorem eq_of_resolveValue_eq_unknown (h : t.resolveValue v = .error (.unknown cause)) :
    cause = v := by
  cases v with
  | int n =>
    rw [resolveValue, resolve] at h
    split at h <;> cases h
    rfl
  | bool b =>
    rw [resolveValue] at h
    split at h <;> cases h
    rfl
  | decimal mantissa places =>
    rw [resolveValue] at h
    split at h <;> cases h
    rfl
  | null | str | list | tuple | record => cases h

/-- A number is unknown when it is out of range. -/
theorem resolveValue_eq_unknown_iff : t.resolveValue v = .error (.unknown v) ↔
    ∃ q, v.rational? = some q ∧ ¬ (0 ≤ q ∧ q < t.size) := by
  rw [← exists_unknown_iff]
  refine ⟨fun h => ⟨v, h⟩, fun ⟨cause, h⟩ => ?_⟩
  rwa [eq_of_resolveValue_eq_unknown h] at h

theorem findValue?_str (t : NameTable) (name : String) :
    t.findValue? (.str name) = .ok (t.find? name) := rfl

/-- Nothing is found under a value that is none of the names. -/
theorem findValue?_of_absent (hv : v.mutablePart? = none)
    (h : ∀ name ∈ t.names, v ≠ .str name) : t.findValue? v = .ok none := by
  have hnone : v.str?.bind t.find? = none := by
    cases hs : v.str? with
    | none => rfl
    | some name =>
      exact find?_eq_none_iff.2 fun hmem => h name hmem (Value.str?_eq_some_iff.1 hs)
  rw [findValue?, Value.hashed, hv]
  exact congrArg Except.ok hnone

theorem findValue?_of_mutable (h : v.mutablePart? = some part) :
    t.findValue? v = .error (.unhashable part) := by
  rw [findValue?, Value.hashed, h]
  rfl

/-- A value is one of the names, or it has a part that can be changed in place, or it is found
nowhere. -/
theorem lookup_cases (t : NameTable) (v : Value) :
    (∃ name ∈ t.names, v = .str name) ∨ (∃ part, v.mutablePart? = some part) ∨
      v.mutablePart? = none ∧ ∀ name ∈ t.names, v ≠ .str name := by
  by_cases h : ∃ name ∈ t.names, v = .str name
  · exact .inl h
  · cases hv : v.mutablePart? with
    | some part => exact .inr (.inl ⟨part, rfl⟩)
    | none => exact .inr (.inr ⟨rfl, fun name hmem he => h ⟨name, hmem, he⟩⟩)

theorem resolveValue_bool_eq_ok_iff {b : Bool} :
    t.resolveValue (.bool b) = .ok name ↔ t.names[b.toNat]? = some name := by
  have hplace : t.resolve? (if b then 1 else 0) = t.names[b.toNat]? := by
    cases b <;> rfl
  rw [resolveValue, hplace]
  cases t.names[b.toNat]? <;> simp

/-- The answer to `resolve`, whether or not a name stands twice. -/
theorem isAnswer_resolve (t : NameTable) (v : Value) :
    IsAnswer t.names (.resolve v) (t.apply (.resolve v)).1 := by
  rw [apply_resolve]
  cases hr : t.resolveValue v with
  | ok name =>
    cases v with
    | int n =>
      obtain ⟨i, rfl, hi⟩ := resolve_eq_ok_iff.1 hr
      exact .resolvedInt hi
    | bool b => exact .resolvedBool (resolveValue_bool_eq_ok_iff.1 hr)
    | decimal mantissa places =>
      rw [resolveValue] at hr
      split at hr <;> cases hr
    | null | str | list | tuple | record => cases hr
  | error e =>
    cases e with
    | unknown cause =>
      obtain rfl := eq_of_resolveValue_eq_unknown hr
      obtain ⟨q, hv, hq⟩ := resolveValue_eq_unknown_iff.1 hr
      exact .outOfRange hv hq
    | mistyped cause =>
      -- a whole number is at most unknown, so the value has decimal places or is no number
      cases v with
      | int n =>
        rw [resolveValue, resolve] at hr
        split at hr <;> cases hr
      | bool b =>
        rw [resolveValue] at hr
        split at hr <;> cases hr
      | decimal mantissa places =>
        rw [resolveValue] at hr
        split at hr
        next hrange =>
          cases hr
          exact .fractional hrange
        next => cases hr
      | null | str | list | tuple | record =>
        cases hr
        exact .notHandle rfl

section Places

variable (h : t.names.Nodup)

include h

/-- The handle of a name is its place. -/
theorem find?_eq_some_natCast {i : Nat} (hi : t.names[i]? = some name) :
    t.find? name = some (i : Symbol) :=
  (find?_eq_some_iff_of_nodup h).2 (resolve_eq_ok_iff.2 ⟨i, rfl, hi⟩)

/-- A table gives an answer that its names determine. -/
theorem isAnswer_apply (call : NameCall) : IsAnswer t.names call (t.apply call).1 := by
  cases call with
  | intern v =>
    cases v with
    | str name =>
      rw [apply_intern_str]
      by_cases hmem : name ∈ t.names
      · obtain ⟨i, hi⟩ := List.getElem?_of_mem hmem
        rw [run_intern_of_find? (find?_eq_some_natCast h hi)]
        exact .known hi
      · rw [run_intern_of_new (find?_eq_none_iff.2 hmem)]
        exact .new hmem
    | null | bool | int | decimal | list | tuple | record => exact .notName rfl
  | resolve v => exact isAnswer_resolve t v
  | contains v =>
    rw [apply_contains]
    rcases t.lookup_cases v with ⟨name, hmem, rfl⟩ | ⟨part, hpart⟩ | ⟨hv, habsent⟩
    · obtain ⟨i, hi⟩ := List.getElem?_of_mem hmem
      rw [findValue?_str, find?_eq_some_natCast h hi]
      exact .present hmem
    · rw [findValue?_of_mutable hpart]
      exact .unhashableContains hpart
    · rw [findValue?_of_absent hv habsent]
      exact .absent hv habsent
  | find v default =>
    rw [apply_find]
    rcases t.lookup_cases v with ⟨name, hmem, rfl⟩ | ⟨part, hpart⟩ | ⟨hv, habsent⟩
    · obtain ⟨i, hi⟩ := List.getElem?_of_mem hmem
      rw [findValue?_str, find?_eq_some_natCast h hi]
      exact .found hi
    · rw [findValue?_of_mutable hpart]
      exact .unhashableFind hpart
    · rw [findValue?_of_absent hv habsent]
      exact .missing hv habsent
  | size => exact .size
  | list => exact .list

/-- The names of a table determine one answer only. -/
theorem apply_fst_of_isAnswer {call : NameCall} {answer : Except LookupError NameAnswer}
    (hanswer : IsAnswer t.names call answer) : (t.apply call).1 = answer := by
  cases hanswer with
  | @known name i hi =>
    rw [apply_intern_str, run_intern_of_find? (find?_eq_some_natCast h hi)]
  | @new name hmem =>
    rw [apply_intern_str, run_intern_of_new (find?_eq_none_iff.2 hmem)]
    rfl
  | @notName v hv =>
    cases v with
    | str name => cases hv
    | null | bool | int | decimal | list | tuple | record => rfl
  | @resolvedInt i name hi =>
    rw [apply_resolve, resolveValue, resolve_eq_ok_iff.2 ⟨i, rfl, hi⟩]
    rfl
  | @resolvedBool b name hb =>
    rw [apply_resolve, resolveValue_bool_eq_ok_iff.2 hb]
    rfl
  | @outOfRange v q hv hq =>
    rw [apply_resolve, resolveValue_eq_unknown_iff.2 ⟨q, hv, hq⟩]
    rfl
  | @fractional mantissa places hrange =>
    rw [apply_resolve, resolveValue, size, if_pos hrange]
    rfl
  | @notHandle v hv =>
    cases v with
    | bool | int | decimal => cases hv
    | null | str | list | tuple | record => rfl
  | @present name hmem =>
    obtain ⟨i, hi⟩ := List.getElem?_of_mem hmem
    rw [apply_contains, findValue?_str, find?_eq_some_natCast h hi]
    rfl
  | @absent v hv habsent =>
    rw [apply_contains, findValue?_of_absent hv habsent]
    rfl
  | @found name default i hi =>
    rw [apply_find, findValue?_str, find?_eq_some_natCast h hi]
    rfl
  | @missing v default hv habsent =>
    rw [apply_find, findValue?_of_absent hv habsent]
    rfl
  | @unhashableContains v part hpart =>
    rw [apply_contains, findValue?_of_mutable hpart]
    rfl
  | @unhashableFind v default part hpart =>
    rw [apply_find, findValue?_of_mutable hpart]
    rfl
  | size => rfl
  | list => rfl

/-- The answer to a call is the one that the names of the table determine. -/
theorem apply_fst_eq_iff {call : NameCall} {answer : Except LookupError NameAnswer} :
    (t.apply call).1 = answer ↔ IsAnswer t.names call answer :=
  ⟨fun he => he ▸ isAnswer_apply h call, apply_fst_of_isAnswer h⟩

end Places

/-- The calls of a run are answered one by one, each by the table that the calls before it
left. -/
theorem getElem?_applyAll_fst (t : NameTable) (calls : List NameCall) (i : Nat) :
    (t.applyAll calls).1[i]? =
      calls[i]?.map fun call => ((t.applyAll (calls.take i)).2.apply call).1 := by
  induction calls generalizing t i with
  | nil => rfl
  | cons call rest ih =>
    rw [applyAll_cons]
    cases i with
    | zero => rfl
    | succ i => exact ih (t.apply call).2 i

/-- The answer to every call of a run on a table that was made from any names is the one that
these names and the names interned by the calls before it determine, in order of first appearance.
A dictionary and a list that are written one after the other give the same answers. -/
theorem answers_of_calls (init : List String) (calls : List NameCall) :
    ∃ start register, ofValues (init.map .str) = .ok start ∧
      NameRegister.ofValues (init.map .str) = .ok register ∧
      (register.applyAll calls).1 = (start.applyAll calls).1 ∧
      ∀ i answer, (start.applyAll calls).1[i]? = some answer ↔
        ∃ call, calls[i]? = some call ∧
          IsAnswer (FirstSeen.ofList (init ++ (calls.take i).filterMap NameCall.interned?))
            call answer := by
  obtain ⟨register, hregister, hkeeps⟩ := NameRegister.Keeps.ofValues_strs init
  refine ⟨ofList init, register, ofValues_strs init, hregister, (hkeeps.applyAll calls).1,
    fun i answer => ?_⟩
  rw [getElem?_applyAll_fst, Option.map_eq_some_iff]
  refine exists_congr fun call => and_congr_right fun _ => ?_
  have hnames : ((ofList init).applyAll (calls.take i)).2.names =
      FirstSeen.ofList (init ++ (calls.take i).filterMap NameCall.interned?) :=
    names_applyAll_ofList init (calls.take i)
  rw [apply_fst_eq_iff (hnames ▸ FirstSeen.nodup_ofList _), hnames]

example : (empty.applyAll [.intern (.str "a"), .intern (.str "b"), .intern (.str "a"),
    .resolve (.bool true), .find (.str "c") .null, .contains (.tuple [.str "a", .list []])]).1 =
    [.ok (.handle 0), .ok (.handle 1), .ok (.handle 0), .ok (.name "b"), .ok (.default .null),
      .error (.mistyped (.unhashable (.list [])))] := rfl

end NameTable

end ChartParsing
