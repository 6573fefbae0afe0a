import ChartParsing.Proofs.NameTable.Runs
import ChartParsing.Proofs.Text.Literal
import ChartParsing.Proofs.Tree.Walks
import ChartParsing.Tree.Outline

/-!
# What the label of a node tells

A plain label ends with a quotation mark if it is that of a leaf, and otherwise with the bracket
that closes a span. A span holds no space, so the name in front of it ends at the last space,
whatever characters it has itself. So a label tells the name of a node, whether it is a leaf, and
its span unless it is one (`outlineLabel_inj`).
-/

namespace ChartParsing

/-- Lists are the same up to the last place of an element, and after it, if they are the same. -/
theorem append_cons_inj_of_not_mem {α : Type} {a : α} {xs ys xs' ys' : List α} (hys : a ∉ ys)
    (hys' : a ∉ ys') (h : xs ++ a :: ys = xs' ++ a :: ys') : xs = xs' ∧ ys = ys' := by
  rcases List.append_eq_append_iff.1 h with ⟨as, rfl, hrest⟩ | ⟨as, rfl, hrest⟩
  · cases as with
    | nil => exact ⟨(List.append_nil xs).symm, (List.cons.inj hrest).2⟩
    | cons b as =>
      obtain ⟨-, rfl⟩ := List.cons.inj hrest
      exact absurd (List.mem_append_right as List.mem_cons_self) hys
  · cases as with
    | nil => exact ⟨List.append_nil xs', (List.cons.inj hrest).2.symm⟩
    | cons b as =>
      obtain ⟨-, rfl⟩ := List.cons.inj hrest
      exact absurd (List.mem_append_right as List.mem_cons_self) hys'

theorem isDigit_of_mem_repr {n : Nat} {c : Char} (h : c ∈ n.repr.toList) : c.isDigit := by
  rw [Nat.toList_repr] at h
  exact Nat.isDigit_of_mem_toDigits (by decide) (by decide) h

theorem eq_of_repr_eq {n m : Nat} (h : n.repr = m.repr) : n = m := by
  have hdigits := congrArg String.toList h
  rw [Nat.toList_repr, Nat.toList_repr] at hdigits
  calc
    n = Nat.ofDigitChars 10 (Nat.toDigits 10 n) 0 := Nat.ofDigitChars_ten_toDigits.symm
    _ = Nat.ofDigitChars 10 (Nat.toDigits 10 m) 0 := by rw [hdigits]
    _ = m := Nat.ofDigitChars_ten_toDigits

theorem repr_ne_minus_append (n : Nat) (s : String) : n.repr ≠ "-" ++ s := by
  intro h
  have hminus : '-' ∈ n.repr.toList := by
    rw [h, String.toList_append]
    exact List.mem_append_left _ (List.mem_singleton_self '-')
  exact absurd (isDigit_of_mem_repr hminus) (by decide)

/-- A number is written with digits, after a minus sign if it is negative. -/
theorem isDigit_or_eq_of_mem_toString {z : Int} {c : Char} (h : c ∈ (toString z).toList) :
    c.isDigit ∨ c = '-' := by
  rw [Int.toString_eq_repr, Int.repr_eq_if] at h
  split at h
  · exact .inl (isDigit_of_mem_repr h)
  · rw [String.toList_append, List.mem_append] at h
    rcases h with h | h
    · exact .inr (List.mem_singleton.1 h)
    · exact .inl (isDigit_of_mem_repr h)

/-- A number can be told from how it is written. -/
theorem eq_of_toString_eq {z z' : Int} (h : toString z = toString z') : z = z' := by
  rw [Int.toString_eq_repr, Int.toString_eq_repr, Int.repr_eq_if, Int.repr_eq_if] at h
  split at h <;> split at h
  · have hnat := eq_of_repr_eq h
    omega
  · exact absurd h (repr_ne_minus_append _ _)
  · exact absurd h.symm (repr_ne_minus_append _ _)
  · have hnat := eq_of_repr_eq ((String.append_right_inj "-").1 h)
    omega

namespace Span

variable {s s' : Span} {c : Char}

theorem toList_literal (s : Span) : s.literal.toList =
    '[' :: ((toString s.start).toList ++ ',' :: ((toString s.stop).toList ++ [')'])) := by
  simp [literal]

theorem isDigit_or_mem_of_mem_literal (h : c ∈ s.literal.toList) :
    c.isDigit ∨ c ∈ ['-', '[', ',', ')'] := by
  simp only [toList_literal, List.mem_cons, List.mem_append, List.not_mem_nil, or_false] at h ⊢
  rcases h with h | h | h | h | h
  · exact .inr (.inr (.inl h))
  · exact (isDigit_or_eq_of_mem_toString h).imp_right .inl
  · exact .inr (.inr (.inr (.inl h)))
  · exact (isDigit_or_eq_of_mem_toString h).imp_right .inl
  · exact .inr (.inr (.inr (.inr h)))

theorem getLast?_literal (s : Span) : s.literal.toList.getLast? = some ')' := by
  have hlast : s.literal.toList =
      '[' :: ((toString s.start).toList ++ ',' :: (toString s.stop).toList) ++ [')'] := by
    simp [toList_literal]
  rw [hlast, List.getLast?_concat]

theorem literal_injective : Function.Injective literal := by
  intro s s' h
  have hcomma : ∀ z : Int, ',' ∉ (toString z).toList ++ [')'] := by
    intro z hz
    rcases List.mem_append.1 hz with hz | hz
    · rcases isDigit_or_eq_of_mem_toString hz with hz | hz <;> revert hz <;> decide
    · revert hz
      decide
  have hchars := congrArg String.toList h
  rw [toList_literal, toList_literal] at hchars
  obtain ⟨hstart, hstop⟩ :=
    append_cons_inj_of_not_mem (hcomma _) (hcomma _) (List.cons.inj hchars).2
  have hstart := eq_of_toString_eq (String.toList_inj.1 hstart)
  have hstop := eq_of_toString_eq (String.toList_inj.1 (List.append_cancel_right hstop))
  obtain ⟨start, length⟩ := s
  obtain ⟨start', length'⟩ := s'
  simp only [stop] at hstart hstop
  rw [mk.injEq]
  omega

end Span

namespace Tree

variable {t u : Tree Symbol} {name name' : String}

/-- The label of a node above the leaves. -/
theorem outlineLabel_of_ne (h : t.shape ≠ .leaf) (name : String) :
    outlineLabel .plain name t = name ++ " " ++ t.span.literal := by
  cases t with
  | leaf l => exact absurd rfl h
  | unary kind child => rfl
  | binary kind span left right => rfl

theorem getLast?_outlineLabel_leaf (h : t.shape = .leaf) (name : String) :
    ∃ mark, (mark = '\'' ∨ mark = '"') ∧
      (outlineLabel .plain name t).toList.getLast? = some mark := by
  cases t with
  | leaf l => exact ⟨_, Text.literalMark_eq _, Text.getLast?_toList_literal name⟩
  | unary kind child => cases h
  | binary kind span left right => cases h

theorem getLast?_outlineLabel_of_ne (h : t.shape ≠ .leaf) (name : String) :
    (outlineLabel .plain name t).toList.getLast? = some ')' := by
  rw [outlineLabel_of_ne h, String.toList_append, List.getLast?_append, Span.getLast?_literal]
  rfl

/-- A label tells whether a node is a leaf. -/
theorem shape_eq_leaf_iff_of_outlineLabel_eq
    (h : outlineLabel .plain name t = outlineLabel .plain name' u) :
    t.shape = .leaf ↔ u.shape = .leaf := by
  have hbracket : ∀ mark : Char, mark = '\'' ∨ mark = '"' → some mark ≠ some ')' := by
    rintro mark (rfl | rfl) <;> decide
  by_cases ht : t.shape = .leaf <;> by_cases hu : u.shape = .leaf
  · exact iff_of_true ht hu
  · obtain ⟨mark, hmark, hlast⟩ := getLast?_outlineLabel_leaf ht name
    rw [h, getLast?_outlineLabel_of_ne hu] at hlast
    exact absurd hlast.symm (hbracket mark hmark)
  · obtain ⟨mark, hmark, hlast⟩ := getLast?_outlineLabel_leaf hu name'
    rw [← h, getLast?_outlineLabel_of_ne ht] at hlast
    exact absurd hlast.symm (hbracket mark hmark)
  · exact iff_of_false ht hu

/-- A label tells the name of a node, whether it is a leaf, and its span unless it is one. -/
theorem outlineLabel_inj (h : outlineLabel .plain name t = outlineLabel .plain name' u) :
    name = name' ∧ (t.shape = .leaf ↔ u.shape = .leaf) ∧ (t.shape ≠ .leaf → t.span = u.span) := by
  have hleaf := shape_eq_leaf_iff_of_outlineLabel_eq h
  by_cases ht : t.shape = .leaf
  · have hu := hleaf.1 ht
    cases t with
    | leaf l =>
      cases u with
      | leaf l' => exact ⟨Text.literal_injective h, hleaf, absurd ht⟩
      | unary => cases hu
      | binary => cases hu
    | unary => cases ht
    | binary => cases ht
  · have hspace : ∀ s : Span, ' ' ∉ s.literal.toList := by
      intro s hs
      have := Span.isDigit_or_mem_of_mem_literal hs
      revert this
      decide
    rw [outlineLabel_of_ne ht, outlineLabel_of_ne (mt hleaf.2 ht)] at h
    have hchars : name.toList ++ ' ' :: t.span.literal.toList =
        name'.toList ++ ' ' :: u.span.literal.toList := by
      simpa using congrArg String.toList h
    obtain ⟨hname, hspan⟩ := append_cons_inj_of_not_mem (hspace _) (hspace _) hchars
    exact ⟨String.toList_inj.1 hname, hleaf,
      fun _ => Span.literal_injective (String.toList_inj.1 hspan)⟩

/-- Nodes above the leaves with the same span are of the same class: a unit node covers one
position and a binary node covers more. -/
theorem IsContiguous.shape_eq (ht : t.IsContiguous) (hu : u.IsContiguous)
    (hleaf : t.shape = .leaf ↔ u.shape = .leaf) (hspan : t.shape ≠ .leaf → t.span = u.span) :
    t.shape = u.shape := by
  have hlong : ∀ {kind : Symbol} {span : Span} {left right : Tree Symbol},
      (binary kind span left right).IsContiguous → span.length ≠ 1 := by
    rintro kind span left right ⟨⟨rfl, -⟩, hl, hr⟩ hone
    have hleft := length_span_pos hl
    have hright := length_span_pos hr
    simp only [Span.followedBy] at hone
    omega
  cases t with
  | leaf l => exact (hleaf.1 rfl).symm
  | unary kind child =>
    cases u with
    | leaf l => exact hleaf.2 rfl
    | unary => rfl
    | binary kind' span left right =>
      have hs : child.span = span := hspan (by simp [shape])
      exact absurd (hs ▸ rfl) (hlong hu)
  | binary kind span left right =>
    cases u with
    | leaf l => exact hleaf.2 rfl
    | unary kind' child =>
      have hs : span = child.span := hspan (by simp [shape])
      exact absurd (hs ▸ rfl) (hlong ht)
    | binary => rfl

end Tree

end ChartParsing
