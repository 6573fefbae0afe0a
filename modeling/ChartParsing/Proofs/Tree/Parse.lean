import ChartParsing.Proofs.Grammar.Building
import ChartParsing.Proofs.Grammar.Language
import ChartParsing.Proofs.Tree.Traversal

/-!
# Parse trees of a text

`Tree.IsParse` says that a tree is a derivation of a part of a text: every node follows a
rule, the parts of a binary node are not empty and make up its span, and every leaf spells
the character at its position. A symbol derives a part of a text exactly when there is such a
tree of the symbol over the part (`derivesText_iff_exists_isParse`).
-/

namespace ChartParsing

/-- Whether two spans have at least one character each, meet and make up a third one. -/
structure Span.Tiles (left right span : Span) : Prop where
  left_pos : 0 < left.length
  right_pos : 0 < right.length
  adjacent : left.stop = right.start
  span_eq : span = left.followedBy right

namespace Tree

variable {σ : Type} [DecidableEq σ]

/-- A tree is a derivation of the part of a text that it covers. -/
def IsParse (g : Grammar σ) (spells : σ → Char → Prop) (text : List Char) : Tree σ → Prop
  | leaf _ => False
  | unary a child => child.kind ∈ g.unitRules.get a ∧
      ∃ (i : Nat) (c : Char), child.position = i ∧ text[i]? = some c ∧ spells child.kind c
  | binary a span left right => (left.kind, right.kind) ∈ g.binaryRules.get a ∧
      left.span.Tiles right.span span ∧
        left.IsParse g spells text ∧ right.IsParse g spells text

variable {g : Grammar σ} {spells : σ → Char → Prop} {text : List Char} {t : Tree σ}

/-- A parse tree covers a part of the text that is not empty. -/
theorem IsParse.exists_span (h : t.IsParse g spells text) :
    ∃ i l : Nat, 0 < l ∧ i + l ≤ text.length ∧ t.span = ⟨i, l⟩ := by
  induction t with
  | leaf l => exact h.elim
  | unary a child =>
    obtain ⟨-, i, c, hi, hc, -⟩ := h
    obtain ⟨hlt, -⟩ := List.getElem?_eq_some_iff.1 hc
    refine ⟨i, 1, by omega, hlt, ?_⟩
    rw [span, Leaf.span, hi]
    rfl
  | binary a s left right ihl ihr =>
    obtain ⟨-, ht, hl, hr⟩ := h
    obtain ⟨i, k, hk, -, hs⟩ := ihl hl
    obtain ⟨j, m, hm, hj, hs'⟩ := ihr hr
    have hadj := ht.adjacent
    rw [hs, hs'] at hadj
    simp only [Span.stop] at hadj
    refine ⟨i, k + m, by omega, by omega, ?_⟩
    rw [span, ht.span_eq, hs, hs', Span.followedBy, Int.natCast_add]

/-- The parts of a binary parse tree, by where its left part ends. -/
theorem IsParse.exists_parts {a : σ} {s : Span} {left right : Tree σ} {i l : Nat}
    (h : (binary a s left right).IsParse g spells text) (hs : s = ⟨i, l⟩) :
    ∃ k, 0 < k ∧ k < l ∧ left.span = ⟨i, k⟩ ∧ right.span = ⟨(i + k : Nat), (l - k : Nat)⟩ := by
  obtain ⟨-, ht, hl, hr⟩ := h
  obtain ⟨i', k, hk, -, hleft⟩ := hl.exists_span
  obtain ⟨j, m, hm, -, hright⟩ := hr.exists_span
  have hadj := ht.adjacent
  have hspan := ht.span_eq
  rw [hleft, hright] at hadj hspan
  simp only [Span.stop] at hadj
  simp only [hs, Span.followedBy, Span.mk.injEq] at hspan
  obtain ⟨hi, hlen⟩ := hspan
  have hi' : i' = i := by omega
  have hj : j = i + k := by omega
  have hm' : m = l - k := by omega
  subst hi' hj hm'
  exact ⟨k, hk, by omega, hleft, hright⟩

/-- The leaves of a parse tree spell the part of the text that it covers. -/
theorem IsParse.leaves_spell (h : t.IsParse g spells text) :
    List.Forall₂ (fun l c => spells l.kind c) t.leaves (t.span.slice text) := by
  induction t with
  | leaf l => exact h.elim
  | unary a child =>
    obtain ⟨-, i, c, hi, hc, hs⟩ := h
    have hspan : (unary a child).span = ⟨i, (1 : Nat)⟩ := by
      rw [span, Leaf.span, hi]
      rfl
    rw [hspan, Span.slice_mk, slice_one hc, leaves_unary]
    exact .cons hs .nil
  | binary a s left right ihl ihr =>
    obtain ⟨i, l, -, -, hs⟩ := h.exists_span
    obtain ⟨k, -, hk, hleft, hright⟩ := h.exists_parts hs
    obtain ⟨-, -, hl, hr⟩ := h
    rw [hs, Span.slice_mk, ← slice_append (Nat.le_of_lt hk), leaves_binary]
    apply List.rel_append
    · have := ihl hl
      rwa [hleft, Span.slice_mk] at this
    · have := ihr hr
      rwa [hright, Span.slice_mk] at this

/-- Every node of a parse tree follows a rule. -/
theorem IsParse.isDerivation (h : t.IsParse g spells text) : t.IsDerivation g := by
  induction t with
  | leaf l => exact h.elim
  | unary a child => exact h.1
  | binary a s left right ihl ihr =>
    obtain ⟨hrule, -, hl, hr⟩ := h
    exact ⟨hrule, ihl hl, ihr hr⟩

/-- The root of a parse tree derives the part of the text that it covers. -/
theorem IsParse.derivesText (h : t.IsParse g spells text) :
    g.DerivesText spells t.kind (t.span.slice text) := by
  refine ⟨t.frontier, derives_frontier h.isDerivation, ?_⟩
  rw [frontier_eq, List.forall₂_map_left_iff]
  exact h.leaves_spell

/-- Two parse trees that meet are the parts of a parse tree, if a rule joins them. -/
theorem IsParse.branch {a : σ} {left right : Tree σ} {i k m : Nat}
    (hl : left.IsParse g spells text) (hr : right.IsParse g spells text)
    (hrule : (left.kind, right.kind) ∈ g.binaryRules.get a)
    (hleft : left.span = ⟨i, k⟩) (hright : right.span = ⟨(i + k : Nat), m⟩) :
    (Tree.branch a left right).IsParse g spells text ∧
      (Tree.branch a left right).span = ⟨i, (k + m : Nat)⟩ := by
  obtain ⟨i', k', hk, -, hs⟩ := hl.exists_span
  obtain ⟨j', m', hm, -, hs'⟩ := hr.exists_span
  have htiles : left.span.Tiles right.span (left.span.followedBy right.span) := by
    refine ⟨?_, ?_, ?_, rfl⟩
    · rw [hs]
      exact Int.natCast_pos.2 hk
    · rw [hs']
      exact Int.natCast_pos.2 hm
    · rw [hleft, hright, Span.stop, Int.natCast_add]
  refine ⟨⟨hrule, htiles, hl, hr⟩, ?_⟩
  show left.span.followedBy right.span = _
  rw [hleft, hright, Span.followedBy]
  rfl

end Tree

namespace Grammar

variable {σ : Type} [DecidableEq σ] {g : Grammar σ} {spells : σ → Char → Prop}
variable {text : List Char} {a : σ}

/-- A symbol derives a part of a text exactly when some parse tree of it covers the part. -/
theorem derivesText_iff_exists_isParse {i l : Nat} (hi : i + l ≤ text.length) :
    g.DerivesText spells a (slice text i l) ↔
      ∃ t : Tree σ, t.IsParse g spells text ∧ t.kind = a ∧ t.span = ⟨i, l⟩ := by
  constructor
  · intro h
    induction l using Nat.strongRecOn generalizing i a with
    | _ l ih =>
      by_cases h0 : l = 0
      · subst h0
        exact absurd rfl (h.ne_nil)
      by_cases h1 : l = 1
      · subst h1
        obtain ⟨c, hc⟩ : ∃ c, text[i]? = some c := ⟨_, List.getElem?_eq_getElem hi⟩
        rw [slice_one hc] at h
        obtain ⟨s, hs, hspell⟩ := derivesText_singleton.1 h
        exact ⟨.unary a ⟨s, i⟩, ⟨hs, i, c, rfl, hc, hspell⟩, rfl, rfl⟩
      · obtain ⟨k, hk, hkl, b, c, hr, hu, hv⟩ := (derivesText_slice_iff (by omega) hi).1 h
        obtain ⟨x, hx, rfl, hxs⟩ := ih k hkl (by omega) hu
        obtain ⟨y, hy, rfl, hys⟩ := ih (l - k) (by omega) (by omega) hv
        obtain ⟨hp, hs⟩ := hx.branch hy hr hxs hys
        have hkl : k + (l - k) = l := by omega
        exact ⟨_, hp, rfl, hkl ▸ hs⟩
  · rintro ⟨t, ht, rfl, hs⟩
    have := ht.derivesText
    rwa [hs, Span.slice_mk] at this

end Grammar

end ChartParsing
