/-!
# Finite maps from natural numbers

A map is a binary tree of slots: the slot of `0` is at the root, those of the odd numbers are
on the left and those of the other even numbers on the right, both numbered anew from `0`. A
look-up takes as many steps as the number has binary digits. `get?_insert` and `get?_map` say
what the operations do to the look-ups.
-/

namespace ChartParsing

/-- A finite map from natural numbers to values of type `γ`. -/
inductive NatMap (γ : Type) where
  | empty
  | node (root : Option γ) (odds evens : NatMap γ)
deriving DecidableEq, Repr

namespace NatMap

variable {γ δ : Type}

/-- The value of a number. -/
def get? : NatMap γ → Nat → Option γ
  | empty, _ => none
  | node root _ _, 0 => root
  | node _ odds evens, n + 1 => if n % 2 = 0 then odds.get? (n / 2) else evens.get? (n / 2)

/-- The slot of `0`. -/
def root? : NatMap γ → Option γ
  | empty => none
  | node root _ _ => root

/-- The map on the odd numbers, which are numbered anew. -/
def odds : NatMap γ → NatMap γ
  | empty => empty
  | node _ odds _ => odds

/-- The map on the positive even numbers, which are numbered anew. -/
def evens : NatMap γ → NatMap γ
  | empty => empty
  | node _ _ evens => evens

/-- Gives a number a value, in place of the one it may have. -/
def insert (m : NatMap γ) (n : Nat) (c : γ) : NatMap γ :=
  match n with
  | 0 => node (some c) m.odds m.evens
  | n + 1 =>
    if n % 2 = 0 then node m.root? (m.odds.insert (n / 2) c) m.evens
    else node m.root? m.odds (m.evens.insert (n / 2) c)
termination_by n

/-- The map with other values. -/
def map (f : γ → δ) : NatMap γ → NatMap δ
  | empty => empty
  | node root odds evens => node (root.map f) (odds.map f) (evens.map f)

@[simp] theorem get?_empty (n : Nat) : (empty : NatMap γ).get? n = none := rfl

@[simp] theorem get?_zero (m : NatMap γ) : m.get? 0 = m.root? := by
  cases m <;> rfl

theorem get?_succ (m : NatMap γ) (n : Nat) :
    m.get? (n + 1) = if n % 2 = 0 then m.odds.get? (n / 2) else m.evens.get? (n / 2) := by
  cases m <;> simp [get?, odds, evens]

theorem get?_insert (m : NatMap γ) (n : Nat) (c : γ) (k : Nat) :
    (m.insert n c).get? k = if k = n then some c else m.get? k := by
  induction n using Nat.strongRecOn generalizing m k with
  | _ n ih =>
    cases n with
    | zero =>
      rw [insert]
      cases k with
      | zero => rfl
      | succ k => simp [get?_succ, odds, evens]
    | succ n =>
      have h : n / 2 < n + 1 := by omega
      rw [insert]
      split
      · cases k with
        | zero => simp [root?]
        | succ k =>
          simp only [get?_succ, odds, evens, ih _ h, Nat.add_right_cancel_iff]
          by_cases hk : k = n
          · subst hk
            simp [*]
          · by_cases he : k % 2 = 0
            · have : k / 2 ≠ n / 2 := by omega
              simp [hk, he, this]
            · simp [hk, he]
      · cases k with
        | zero => simp [root?]
        | succ k =>
          simp only [get?_succ, odds, evens, ih _ h, Nat.add_right_cancel_iff]
          by_cases hk : k = n
          · subst hk
            simp [*]
          · by_cases he : k % 2 = 0
            · simp [hk, he]
            · have : k / 2 ≠ n / 2 := by omega
              simp [hk, he, this]

theorem get?_map (f : γ → δ) (m : NatMap γ) (n : Nat) : (m.map f).get? n = (m.get? n).map f := by
  induction m generalizing n with
  | empty => rfl
  | node root odds evens iho ihe =>
    cases n with
    | zero => rfl
    | succ n =>
      simp only [map, get?]
      split
      · exact iho _
      · exact ihe _

end NatMap

end ChartParsing
