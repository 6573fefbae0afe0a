import ChartParsing.Grammar.Derivation
import Mathlib.Data.List.Forall2

/-!
# The texts that a symbol derives

A symbol derives a text when it derives terminals that spell the characters of the text. A
derivation of one character is a unit rule (`derivesText_singleton`), and one of more
characters a binary rule over two shorter parts (`derivesText_slice_iff`), where the parts of
a text are its slices.
-/

namespace ChartParsing

/-- The `l` characters of a text from position `i`. -/
def slice (text : List Char) (i l : Nat) : List Char := (text.drop i).take l

/-- The part of a text that a span covers. -/
def Span.slice (s : Span) (text : List Char) : List Char :=
  ChartParsing.slice text s.start.toNat s.length.toNat

section Slices

variable {text : List Char} {i k l : Nat}

@[simp] theorem Span.slice_mk : (⟨i, l⟩ : Span).slice text = ChartParsing.slice text i l := rfl

theorem length_slice (h : i + l ≤ text.length) : (slice text i l).length = l := by
  rw [slice, List.length_take, List.length_drop]
  omega

/-- A slice is the slices of its two parts, one after the other. -/
theorem slice_append (h : k ≤ l) :
    slice text i k ++ slice text (i + k) (l - k) = slice text i l := by
  have hl : l = k + (l - k) := by omega
  unfold slice
  rw [hl, List.take_add, List.drop_drop]
  congr 2
  omega

theorem slice_one {c : Char} (h : text[i]? = some c) : slice text i 1 = [c] := by
  obtain ⟨hi, rfl⟩ := List.getElem?_eq_some_iff.1 h
  rw [slice, List.drop_eq_getElem_cons hi, List.take_succ_cons, List.take_zero]

theorem slice_all : slice text 0 text.length = text := by
  rw [slice, List.drop_zero, List.take_length]

/-- Where a slice is cut in two, the parts are slices. -/
theorem eq_slices_of_append {u v : List Char} (h : slice text i l = u ++ v)
    (hi : i + l ≤ text.length) :
    u.length + v.length = l ∧ u = slice text i u.length ∧
      v = slice text (i + u.length) v.length := by
  have hlen : u.length + v.length = l := by
    rw [← List.length_append, ← h, length_slice hi]
  have hcut : slice text i u.length ++ slice text (i + u.length) (l - u.length) =
      slice text i l := slice_append (Nat.le.intro hlen)
  have hv : l - u.length = v.length := by omega
  rw [hv, h] at hcut
  obtain ⟨hu, hv⟩ := List.append_inj hcut (length_slice (by omega))
  exact ⟨hlen, hu.symm, hv.symm⟩

end Slices

namespace Grammar

variable {σ : Type} [DecidableEq σ]

/-- A symbol derives terminals that spell the characters of a text. -/
def DerivesText (g : Grammar σ) (spells : σ → Char → Prop) (a : σ) (text : List Char) : Prop :=
  ∃ ts, g.Derives a ts ∧ List.Forall₂ spells ts text

variable {g : Grammar σ} {spells : σ → Char → Prop} {a b c : σ} {text u v : List Char}

theorem DerivesText.unit {t : σ} {x : Char} (h : t ∈ g.unitRules.get a) (hs : spells t x) :
    g.DerivesText spells a [x] :=
  ⟨[t], .unit h, .cons hs .nil⟩

theorem DerivesText.binary (h : (b, c) ∈ g.binaryRules.get a) (left : g.DerivesText spells b u)
    (right : g.DerivesText spells c v) : g.DerivesText spells a (u ++ v) := by
  obtain ⟨ts, hts, hu⟩ := left
  obtain ⟨ts', hts', hv⟩ := right
  exact ⟨ts ++ ts', .binary h hts hts', List.rel_append hu hv⟩

/-- The last rule of a derivation. -/
theorem DerivesText.cases (h : g.DerivesText spells a text) :
    (∃ x t, text = [x] ∧ t ∈ g.unitRules.get a ∧ spells t x) ∨
    (∃ b c u v, text = u ++ v ∧ (b, c) ∈ g.binaryRules.get a ∧
      g.DerivesText spells b u ∧ g.DerivesText spells c v) := by
  obtain ⟨ts, hts, hspells⟩ := h
  cases hts with
  | @unit _ t ht =>
    obtain ⟨x, rest, hx, hrest, rfl⟩ := List.forall₂_cons_left_iff.1 hspells
    rw [List.forall₂_nil_left_iff] at hrest
    subst hrest
    exact .inl ⟨x, t, rfl, ht, hx⟩
  | @binary _ b c us vs hr hu hv =>
    have hcut := List.forall₂_take_append text us vs hspells.flip
    have hrest := List.forall₂_drop_append text us vs hspells.flip
    exact .inr ⟨b, c, text.take us.length, text.drop us.length,
      (List.take_append_drop us.length text).symm, hr, ⟨us, hu, hcut.flip⟩, ⟨vs, hv, hrest.flip⟩⟩

theorem DerivesText.ne_nil (h : g.DerivesText spells a text) : text ≠ [] := by
  obtain ⟨ts, hts, hspells⟩ := h
  intro hn
  rw [hn, List.forall₂_nil_right_iff] at hspells
  exact hts.ne_nil hspells

/-- A symbol derives one character by a unit rule. -/
theorem derivesText_singleton {x : Char} :
    g.DerivesText spells a [x] ↔ ∃ t ∈ g.unitRules.get a, spells t x := by
  constructor
  · intro h
    rcases h.cases with ⟨y, t, hy, ht, hs⟩ | ⟨b, c, u, v, huv, -, hu, hv⟩
    · cases hy
      exact ⟨t, ht, hs⟩
    · have := List.length_pos_iff.2 hu.ne_nil
      have := List.length_pos_iff.2 hv.ne_nil
      have := congrArg List.length huv
      rw [List.length_append, List.length_singleton] at this
      omega
  · rintro ⟨t, ht, hs⟩
    exact .unit ht hs

/-- A symbol derives a longer slice by a binary rule over the two parts of a split. -/
theorem derivesText_slice_iff {i l : Nat} (hl : 2 ≤ l) (hi : i + l ≤ text.length) :
    g.DerivesText spells a (slice text i l) ↔
      ∃ k, 0 < k ∧ k < l ∧ ∃ b c, (b, c) ∈ g.binaryRules.get a ∧
        g.DerivesText spells b (slice text i k) ∧
          g.DerivesText spells c (slice text (i + k) (l - k)) := by
  constructor
  · intro h
    rcases h.cases with ⟨x, t, hx, -⟩ | ⟨b, c, u, v, huv, hr, hu, hv⟩
    · have := congrArg List.length hx
      rw [length_slice hi, List.length_singleton] at this
      omega
    · have := List.length_pos_iff.2 hu.ne_nil
      have := List.length_pos_iff.2 hv.ne_nil
      obtain ⟨hlen, hcut, hrest⟩ := eq_slices_of_append huv hi
      have hv' : l - u.length = v.length := by omega
      refine ⟨u.length, by omega, by omega, b, c, hr, hcut ▸ hu, ?_⟩
      rw [hv', ← hrest]
      exact hv
  · rintro ⟨k, -, hk, b, c, hr, hu, hv⟩
    rw [← slice_append (Nat.le_of_lt hk)]
    exact hu.binary hr hv

end Grammar

end ChartParsing
