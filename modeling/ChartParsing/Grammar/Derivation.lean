import ChartParsing.Grammar.Basic
import ChartParsing.Tree.Basic

/-!
# Derivations

What a grammar's rules say without a chart: `Derives` tells which lists of terminals come
from a symbol, and `Tree.IsDerivation` which trees follow the rules node for node. A tree
that follows the rules is a witness of what its symbol derives (`derives_frontier`).
-/

namespace ChartParsing

variable {σ : Type} [DecidableEq σ]

/-- A list of terminals comes from a symbol by unit and binary rules. -/
inductive Grammar.Derives (g : Grammar σ) : σ → List σ → Prop where
  | unit {a t : σ} (h : t ∈ g.unitRules.get a) : g.Derives a [t]
  | binary {a b c : σ} {u v : List σ} (h : (b, c) ∈ g.binaryRules.get a)
      (left : g.Derives b u) (right : g.Derives c v) : g.Derives a (u ++ v)

namespace Tree

/-- Every node of a tree follows a rule of the grammar; a bare leaf follows none. -/
def IsDerivation (g : Grammar σ) : Tree σ → Prop
  | leaf _ => False
  | unary a child => child.kind ∈ g.unitRules.get a
  | binary a _ left right =>
    (left.kind, right.kind) ∈ g.binaryRules.get a ∧ left.IsDerivation g ∧ right.IsDerivation g

omit [DecidableEq σ] in
/-- The symbols of the leaves from left to right. -/
def frontier : Tree σ → List σ
  | leaf l => [l.kind]
  | unary _ child => [child.kind]
  | binary _ _ left right => left.frontier ++ right.frontier

/-- The root of a tree that follows the rules derives the symbols of its leaves. -/
theorem derives_frontier {g : Grammar σ} {t : Tree σ} (h : t.IsDerivation g) :
    g.Derives t.kind t.frontier := by
  induction t with
  | leaf l => exact h.elim
  | unary a child => exact .unit h
  | binary a _ left right ihl ihr =>
    obtain ⟨hr, hl, h2⟩ := h
    exact .binary hr (ihl hl) (ihr h2)

end Tree

namespace Grammar

theorem mem_get_unitRules {d : Declarations σ} {a t : σ} :
    t ∈ (ofDeclarations d).unitRules.get a ↔ (a, t) ∈ d.unit :=
  Groups.mem_get_ofPairs

theorem mem_get_binaryRules {d : Declarations σ} {a : σ} {p : σ × σ} :
    p ∈ (ofDeclarations d).binaryRules.get a ↔ (a, p) ∈ d.binary :=
  Groups.mem_get_ofPairs

/-- What a symbol derives has at least one terminal. -/
theorem Derives.ne_nil {g : Grammar σ} {a : σ} {ts : List σ} (h : g.Derives a ts) : ts ≠ [] := by
  induction h with
  | unit h => simp
  | binary h left right ihl ihr => simp [ihl]

end Grammar

end ChartParsing
