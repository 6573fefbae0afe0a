import ChartParsing.NatMap
import ChartParsing.Span

/-!
# Finite maps from spans

A map from spans keeps, for every length, a map from starts. `get?_insert` and `get?_map` say
what the operations do to the look-ups.
-/

namespace ChartParsing

/-- A finite map from spans to values of type `γ`, by length and start. -/
structure SpanMap (γ : Type) where
  byLength : NatMap (NatMap γ)
deriving DecidableEq, Repr

namespace SpanMap

variable {γ δ : Type}

/-- The number that stands for an integer: the even ones for those from `0` on. -/
def code : Int → Nat
  | .ofNat n => 2 * n
  | .negSucc n => 2 * n + 1

theorem code_inj {x y : Int} : code x = code y ↔ x = y := by
  constructor
  · intro h
    cases x with
    | ofNat a =>
      cases y with
      | ofNat b =>
        simp only [code] at h
        congr 1
        omega
      | negSucc b =>
        simp only [code] at h
        omega
    | negSucc a =>
      cases y with
      | ofNat b =>
        simp only [code] at h
        omega
      | negSucc b =>
        simp only [code] at h
        congr 1
        omega
  · exact fun h => congrArg code h

/-- The map without spans. -/
def empty : SpanMap γ := ⟨.empty⟩

/-- The map from the starts of the spans of a length. -/
def row (m : SpanMap γ) (length : Int) : NatMap γ :=
  (m.byLength.get? (code length)).getD .empty

/-- The value of a span. -/
def get? (m : SpanMap γ) (s : Span) : Option γ :=
  (m.row s.length).get? (code s.start)

/-- Gives a span a value, in place of the one it may have. -/
def insert (m : SpanMap γ) (s : Span) (c : γ) : SpanMap γ :=
  ⟨m.byLength.insert (code s.length) ((m.row s.length).insert (code s.start) c)⟩

/-- The map with other values. -/
def map (f : γ → δ) (m : SpanMap γ) : SpanMap δ :=
  ⟨m.byLength.map (NatMap.map f)⟩

@[simp] theorem get?_empty (s : Span) : (empty : SpanMap γ).get? s = none := rfl

theorem row_insert (m : SpanMap γ) (s : Span) (c : γ) (length : Int) :
    (m.insert s c).row length =
      if length = s.length then (m.row s.length).insert (code s.start) c else m.row length := by
  simp only [row, insert, NatMap.get?_insert, code_inj]
  split <;> rfl

theorem get?_insert (m : SpanMap γ) (s : Span) (c : γ) (t : Span) :
    (m.insert s c).get? t = if t = s then some c else m.get? t := by
  obtain ⟨start, length⟩ := s
  obtain ⟨start', length'⟩ := t
  simp only [get?, row_insert, Span.mk.injEq]
  by_cases h : length' = length
  · subst h
    simp [NatMap.get?_insert, code_inj]
  · simp [h]

theorem get?_map (f : γ → δ) (m : SpanMap γ) (s : Span) : (m.map f).get? s = (m.get? s).map f := by
  simp only [get?, row, map, NatMap.get?_map]
  cases m.byLength.get? (code s.length) with
  | none => rfl
  | some r => exact NatMap.get?_map f r _

end SpanMap

end ChartParsing
