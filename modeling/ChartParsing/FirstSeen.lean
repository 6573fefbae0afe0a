/-!
# Lists in order of first appearance

A list without repetitions that grows at its end: `add` appends what is new and leaves the
list alone otherwise, so that every element keeps the place where it was first seen. The
laws: `add` and `addAll` hold the old elements and the new ones and nothing else, they never
introduce a repetition, and the old list stays at the front.
-/

namespace ChartParsing.FirstSeen

variable {α : Type} [DecidableEq α]

/-- Appends an element unless it is there. -/
def add (seen : List α) (a : α) : List α :=
  if a ∈ seen then seen else seen ++ [a]

/-- Adds the elements of a list one after the other. -/
def addAll (seen : List α) (as : List α) : List α :=
  as.foldl add seen

/-- The elements of a list in order of first appearance. -/
def ofList (as : List α) : List α :=
  addAll [] as

theorem add_of_mem {seen : List α} {a : α} (h : a ∈ seen) : add seen a = seen :=
  if_pos h

theorem add_of_not_mem {seen : List α} {a : α} (h : a ∉ seen) : add seen a = seen ++ [a] :=
  if_neg h

theorem mem_add {seen : List α} {a b : α} : b ∈ add seen a ↔ b ∈ seen ∨ b = a := by
  by_cases h : a ∈ seen
  · rw [add_of_mem h]
    exact ⟨Or.inl, fun hb => hb.elim id fun e => e ▸ h⟩
  · rw [add_of_not_mem h]
    simp

theorem addAll_cons (seen : List α) (a : α) (as : List α) :
    addAll seen (a :: as) = addAll (add seen a) as := rfl

theorem mem_addAll {seen as : List α} {b : α} : b ∈ addAll seen as ↔ b ∈ seen ∨ b ∈ as := by
  induction as generalizing seen with
  | nil => simp [addAll]
  | cons a as ih =>
    rw [addAll_cons, ih, mem_add, List.mem_cons, or_assoc]

theorem mem_ofList {as : List α} {b : α} : b ∈ ofList as ↔ b ∈ as := by
  simp [ofList, mem_addAll]

theorem nodup_add {seen : List α} (a : α) (h : seen.Nodup) : (add seen a).Nodup := by
  by_cases ha : a ∈ seen
  · rwa [add_of_mem ha]
  · rw [add_of_not_mem ha, List.nodup_append]
    refine ⟨h, by simp, ?_⟩
    rintro x hx y hy rfl
    exact ha (List.mem_singleton.1 hy ▸ hx)

theorem nodup_addAll {seen : List α} (as : List α) (h : seen.Nodup) : (addAll seen as).Nodup := by
  induction as generalizing seen with
  | nil => exact h
  | cons a as ih => exact ih (nodup_add a h)

theorem nodup_ofList (as : List α) : (ofList as).Nodup :=
  nodup_addAll as List.nodup_nil

theorem prefix_add (seen : List α) (a : α) : seen <+: add seen a := by
  by_cases h : a ∈ seen
  · simp only [add_of_mem h, List.prefix_refl]
  · simp only [add_of_not_mem h, List.prefix_append]

theorem prefix_addAll (seen as : List α) : seen <+: addAll seen as := by
  induction as generalizing seen with
  | nil => exact List.prefix_refl seen
  | cons a as ih => exact (prefix_add seen a).trans (ih _)

theorem addAll_append (seen as bs : List α) :
    addAll seen (as ++ bs) = addAll (addAll seen as) bs :=
  List.foldl_append

end ChartParsing.FirstSeen
