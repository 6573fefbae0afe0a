import Mathlib.Data.List.Forall2

/-!
# Runs of checked steps

A checked step can fail. `foldlM_invariant` says when a whole run succeeds: each step must
succeed where the steps before it lead, and what a step preserves the run preserves. The
other way round, a run that has succeeded is taken apart into its steps (`bind_eq_ok_iff`,
`mapM_eq_ok_iff`).
-/

namespace ChartParsing

variable {ε α β : Type}

section Related

variable {R : α → β → Prop} {as : List α} {bs : List β}

theorem exists_of_mem_left (h : List.Forall₂ R as bs) {a : α} (ha : a ∈ as) :
    ∃ b ∈ bs, R a b := by
  induction h with
  | nil => cases ha
  | @cons x y as bs hxy _ ih =>
    rcases List.mem_cons.1 ha with rfl | ha
    · exact ⟨y, List.mem_cons_self, hxy⟩
    · obtain ⟨b, hb, hr⟩ := ih ha
      exact ⟨b, List.mem_cons_of_mem y hb, hr⟩

theorem exists_of_mem_right (h : List.Forall₂ R as bs) {b : β} (hb : b ∈ bs) :
    ∃ a ∈ as, R a b :=
  exists_of_mem_left h.flip hb

/-- The elements of a list that is related one to one are those that are related to something. -/
theorem mem_right_iff (hR : Relator.BiUnique R) (h : List.Forall₂ R as bs) {b : β} :
    b ∈ bs ↔ ∃ a ∈ as, R a b := by
  refine ⟨exists_of_mem_right h, ?_⟩
  rintro ⟨a, ha, hab⟩
  obtain ⟨b', hb', hab'⟩ := exists_of_mem_left h ha
  exact hR.2 hab hab' ▸ hb'

/-- Elements that are each related to something make a list that is related to a list. -/
theorem exists_forall₂ {p : β → Prop} (h : ∀ a ∈ as, ∃ b, R a b ∧ p b) :
    ∃ bs, List.Forall₂ R as bs ∧ ∀ b ∈ bs, p b := by
  induction as with
  | nil => exact ⟨[], .nil, by simp⟩
  | cons a as ih =>
    obtain ⟨b, hb, hp⟩ := h a List.mem_cons_self
    obtain ⟨bs, hbs, hps⟩ := ih fun x hx => h x (List.mem_cons_of_mem a hx)
    exact ⟨b :: bs, .cons hb hbs, List.forall_mem_cons.2 ⟨hp, hps⟩⟩

/-- What holds of every second part can be said of the related pairs as well. -/
theorem forall₂_and_right {p : β → Prop} (h : List.Forall₂ R as bs) (hp : ∀ b ∈ bs, p b) :
    List.Forall₂ (fun a b => R a b ∧ p b) as bs := by
  have hflip := (List.forall₂_and_left bs as).2 ⟨hp, h.flip⟩
  exact hflip.flip.imp fun _ _ => And.symm

/-- Lists that are related to one list are related to each other through it. -/
theorem forall₂_comp {γ : Type} {S : β → γ → Prop} {T : α → γ → Prop} {cs : List γ}
    (h : List.Forall₂ R as bs) (hs : List.Forall₂ S bs cs)
    (ht : ∀ a b c, R a b → S b c → T a c) : List.Forall₂ T as cs := by
  induction h generalizing cs with
  | nil =>
    cases hs
    exact .nil
  | cons hab _ ih =>
    cases hs with
    | cons hbc hs => exact .cons (ht _ _ _ hab hbc) (ih hs)

theorem isEmpty_eq_of_forall₂ (h : List.Forall₂ R as bs) : as.isEmpty = bs.isEmpty := by
  cases h <;> rfl

theorem isSome_eq_of_rel {x : Option α} {y : Option β} (h : Option.Rel R x y) :
    x.isSome = y.isSome := by
  cases h <;> rfl

theorem exists_of_rel_some {a : α} {y : Option β} (h : Option.Rel R (some a) y) :
    ∃ b, y = some b ∧ R a b := by
  cases h with
  | some h => exact ⟨_, rfl, h⟩

/-- Two options with contents, or without, are related when their contents are. -/
theorem rel_of_isSome_eq {x : Option α} {y : Option β} (h : x.isSome = y.isSome)
    (hR : ∀ a b, x = some a → y = some b → R a b) : Option.Rel R x y := by
  cases x with
  | none =>
    cases y with
    | none => exact .none
    | some b => cases h
  | some a =>
    cases y with
    | none => cases h
    | some b => exact .some (hR a b rfl rfl)

theorem rel_head? (h : List.Forall₂ R as bs) : Option.Rel R as.head? bs.head? := by
  cases h with
  | nil => exact .none
  | cons h => exact .some h

/-- Tests that agree on related elements find related elements first. -/
theorem rel_find? {p : α → Bool} {q : β → Bool} (hpq : ∀ a b, R a b → p a = q b)
    (h : List.Forall₂ R as bs) : Option.Rel R (as.find? p) (bs.find? q) := by
  induction h with
  | nil => exact .none
  | @cons a b _ _ hab _ ih =>
    rw [List.find?_cons, List.find?_cons, ← hpq a b hab]
    cases p a with
    | true => exact .some hab
    | false => exact ih

end Related

/-- Two steps succeed when the first does and the second does with its result. -/
theorem bind_eq_ok_iff {x : Except ε α} {f : α → Except ε β} {b : β} :
    x >>= f = .ok b ↔ ∃ a, x = .ok a ∧ f a = .ok b := by
  cases x with
  | error e =>
    constructor
    · intro h
      cases h
    · rintro ⟨a, ha, -⟩
      cases ha
  | ok a =>
    constructor
    · intro h
      exact ⟨a, rfl, h⟩
    · rintro ⟨a', ha, h⟩
      cases ha
      exact h

/-- A run succeeds when its first step does and the others do after it. -/
theorem foldlM_cons_eq_ok_iff {step : β → α → Except ε β} {x : α} {xs : List α} {b b' : β} :
    (x :: xs).foldlM step b = .ok b' ↔ ∃ b₁, step b x = .ok b₁ ∧ xs.foldlM step b₁ = .ok b' := by
  rw [List.foldlM_cons, bind_eq_ok_iff]

/-- The ends of a run that succeeds are related when no steps and one more step in front relate
them. -/
theorem rel_of_foldlM {step : β → α → Except ε β} {R : List α → β → β → Prop}
    (nil : ∀ b, R [] b b)
    (cons : ∀ x xs b b₁ b', step b x = .ok b₁ → R xs b₁ b' → R (x :: xs) b b') {xs : List α}
    {b b' : β} (h : xs.foldlM step b = .ok b') : R xs b b' := by
  induction xs generalizing b with
  | nil =>
    cases h
    exact nil _
  | cons x xs ih =>
    obtain ⟨b₁, hfirst, hrest⟩ := foldlM_cons_eq_ok_iff.1 h
    exact cons x xs b b₁ b' hfirst (ih hrest)

/-- A run succeeds, and keeps what each step keeps, when each step succeeds after the ones
before it. -/
theorem foldlM_invariant {step : β → α → Except ε β} (P : List α → β → Prop) {xs : List α} {b : β}
    (start : P [] b)
    (next : ∀ done x rest, xs = done ++ x :: rest → ∀ b, P done b →
      ∃ b', step b x = .ok b' ∧ P (done ++ [x]) b') :
    ∃ b', xs.foldlM step b = .ok b' ∧ P xs b' := by
  have run : ∀ todo done b, xs = done ++ todo → P done b →
      ∃ b', todo.foldlM step b = .ok b' ∧ P xs b' := by
    intro todo
    induction todo with
    | nil =>
      intro done b hx hb
      rw [List.append_nil] at hx
      exact ⟨b, rfl, hx ▸ hb⟩
    | cons x todo ih =>
      intro done b hx hb
      obtain ⟨b', hstep, hb'⟩ := next done x todo hx b hb
      obtain ⟨b'', hrun, hb''⟩ := ih (done ++ [x]) b' (by simp [hx]) hb'
      refine ⟨b'', ?_, hb''⟩
      rw [List.foldlM_cons, hstep]
      exact hrun
  exact run xs [] b rfl start

/-- If each step fails, if at all, with the fault of its element, a run that fails does so with the
first fault there is. -/
theorem findSome?_eq_of_foldlM_error {step : β → α → Except ε β} {fault : α → Option ε}
    (P : List α → β → Prop)
    (next : ∀ x xs b b', P (x :: xs) b → step b x = .ok b' → P xs b' ∧ fault x = none)
    (failed : ∀ x xs b e, P (x :: xs) b → step b x = .error e → fault x = some e) {xs : List α}
    {b : β} (start : P xs b) {e : ε} (h : xs.foldlM step b = .error e) :
    xs.findSome? fault = some e := by
  induction xs generalizing b with
  | nil => cases h
  | cons x xs ih =>
    rw [List.foldlM_cons] at h
    rw [List.findSome?_cons]
    cases hstep : step b x with
    | error e' =>
      rw [hstep] at h
      cases h
      rw [failed x xs b e start hstep]
    | ok b' =>
      rw [hstep] at h
      obtain ⟨hb', hnone⟩ := next x xs b b' start hstep
      rw [hnone]
      exact ih hb' h

/-- If each step succeeds or fails whatever came before it, a run succeeds when each of its steps
does. -/
theorem exists_foldlM_eq_ok_iff {step : β → α → Except ε β} {p : α → Prop}
    (hstep : ∀ b x, (∃ b', step b x = .ok b') ↔ p x) {xs : List α} {b : β} :
    (∃ b', xs.foldlM step b = .ok b') ↔ ∀ x ∈ xs, p x := by
  induction xs generalizing b with
  | nil => exact iff_of_true ⟨b, rfl⟩ (List.forall_mem_nil p)
  | cons x xs ih =>
    rw [List.forall_mem_cons, ← hstep b x]
    constructor
    · rintro ⟨b', h⟩
      obtain ⟨b₁, hfirst, hrest⟩ := foldlM_cons_eq_ok_iff.1 h
      exact ⟨⟨b₁, hfirst⟩, ih.1 ⟨b', hrest⟩⟩
    · rintro ⟨⟨b₁, hfirst⟩, h⟩
      obtain ⟨b', hrest⟩ := ih.2 h
      exact ⟨b', foldlM_cons_eq_ok_iff.2 ⟨b₁, hfirst, hrest⟩⟩

theorem mapError_eq_ok_iff {ε' : Type} {f : ε → ε'} {x : Except ε α} {a : α} :
    x.mapError f = .ok a ↔ x = .ok a := by
  cases x <;> simp [Except.mapError]

theorem mapError_eq_error_iff {ε' : Type} {f : ε → ε'} {x : Except ε α} {e' : ε'} :
    x.mapError f = .error e' ↔ ∃ e, x = .error e ∧ f e = e' := by
  cases x <;> simp [Except.mapError]

theorem eq_ok_of_toOption {x : Except ε α} {a : α} (h : x.toOption = some a) : x = .ok a := by
  cases x with
  | error e => cases h
  | ok b =>
    cases h
    rfl

theorem eq_ok_and_of_toOption {x : Except ε α × β} {a : α} {b : β}
    (h : x.1.toOption = some a ∧ x.2 = b) : x = (.ok a, b) :=
  Prod.ext (eq_ok_of_toOption h.1) h.2

/-- A step applied to a list gives a list of results when it gives them one by one. -/
theorem mapM_eq_ok_iff {f : α → Except ε β} {xs : List α} {ys : List β} :
    xs.mapM f = .ok ys ↔ List.Forall₂ (fun x y => f x = .ok y) xs ys := by
  induction xs generalizing ys with
  | nil =>
    rw [List.forall₂_nil_left_iff, List.mapM_nil]
    exact ⟨fun h => (Except.ok.inj h).symm, fun h => h ▸ rfl⟩
  | cons x xs ih =>
    rw [List.mapM_cons, bind_eq_ok_iff, List.forall₂_cons_left_iff]
    constructor
    · rintro ⟨y, hy, h⟩
      obtain ⟨zs, hzs, h⟩ := bind_eq_ok_iff.1 h
      cases h
      exact ⟨y, zs, hy, ih.1 hzs, rfl⟩
    · rintro ⟨y, zs, hy, hzs, rfl⟩
      exact ⟨y, hy, bind_eq_ok_iff.2 ⟨zs, ih.2 hzs, rfl⟩⟩

/-- A step applied to every element succeeds when it succeeds on each. -/
theorem mapM_eq_ok {f : α → Except ε β} {h : α → β} {xs : List α}
    (hf : ∀ x ∈ xs, f x = .ok (h x)) : xs.mapM f = .ok (xs.map h) := by
  rw [mapM_eq_ok_iff, List.forall₂_map_right_iff, List.forall₂_same]
  exact hf

end ChartParsing
