import ChartParsing.Tree.Basic

/-!
# Equality of parse trees

Two trees are compared pair by pair from the roots down, with the pairs still to be compared
on a stack. A fingerprint of the trees tells most different pairs apart at once, and a test
for identity passes over what is shared. Neither decides the answer: fingerprints may
collide, and the identity test may miss, as long as what it calls identical is equal.
-/

namespace ChartParsing.Tree

variable {σ : Type}

/-- What a comparison may use to come to an end early. -/
structure Shortcuts (σ : Type) where
  fingerprint : Tree σ → UInt64
  identical : Tree σ → Tree σ → Bool
  eq_of_identical : ∀ {x y : Tree σ}, identical x y = true → x = y

/-- Whether two roots agree, their fingerprints included. -/
def Shortcuts.rootsAgree [DecidableEq σ] (shortcuts : Shortcuts σ) (x y : Tree σ) : Bool :=
  decide (x.shape = y.shape) && shortcuts.fingerprint x == shortcuts.fingerprint y &&
    decide (x.kind = y.kind) && decide (x.span = y.span)

theorem totalCount_zip_le (xs ys : List (Tree σ)) :
    totalCount ((xs.zip ys).map (·.1)) ≤ totalCount xs := by
  induction xs generalizing ys with
  | nil => simp [totalCount]
  | cons x xs ih =>
    cases ys with
    | nil => simp [totalCount]
    | cons y ys =>
      have := ih ys
      have e : ((x :: xs).zip (y :: ys)).map (·.1) = x :: (xs.zip ys).map (·.1) := rfl
      rw [e, totalCount, totalCount]
      omega

/-- Whether all pairs on a stack are equal, with its top at the front. -/
def equalPairs [DecidableEq σ] (shortcuts : Shortcuts σ) : List (Tree σ × Tree σ) → Bool
  | [] => true
  | (x, y) :: stack =>
    if shortcuts.identical x y then equalPairs shortcuts stack
    else if shortcuts.rootsAgree x y then
      equalPairs shortcuts ((x.children.zip y.children).reverse ++ stack)
    else false
termination_by stack => totalCount (stack.map (·.1))
decreasing_by
  · have := x.nodeCount_pos
    have e : ((x, y) :: stack).map (·.1) = x :: stack.map (·.1) := rfl
    rw [e, totalCount]
    omega
  · have h1 := x.nodeCount_eq
    have h2 := totalCount_zip_le x.children y.children
    have e : ((x, y) :: stack).map (·.1) = x :: stack.map (·.1) := rfl
    rw [List.map_append, List.map_reverse, totalCount_append, totalCount_reverse, e, totalCount]
    omega

/-- Whether two trees are equal. -/
def equal [DecidableEq σ] (shortcuts : Shortcuts σ) (x y : Tree σ) : Bool :=
  equalPairs shortcuts [(x, y)]

/-- The fingerprint that mixes the hashes of a root's shape, symbol and span. -/
def rootFingerprint [Hashable σ] (t : Tree σ) : UInt64 :=
  let tag : UInt64 := match t.shape with
    | .leaf => 0
    | .unary => 1
    | .binary => 2
  mixHash tag (mixHash (hash t.kind) (mixHash (hash t.span.start) (hash t.span.length)))

/-- The shortcuts that look at the roots alone. -/
def Shortcuts.ofRoots [Hashable σ] : Shortcuts σ where
  fingerprint := rootFingerprint
  identical _ _ := false
  eq_of_identical h := nomatch h

/-- Whether two trees are the same node for node. -/
def sameAs [DecidableEq σ] [Hashable σ] (x y : Tree σ) : Bool :=
  equal Shortcuts.ofRoots x y

/-- The number of different trees among two. -/
def distinctAmong [DecidableEq σ] [Hashable σ] (x y : Tree σ) : Nat :=
  if x.sameAs y then 1 else 2

end ChartParsing.Tree
