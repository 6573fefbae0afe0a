import ChartParsing.Proofs.Parser.Solutions
import Mathlib.Combinatorics.Enumerative.DyckWord
import Mathlib.Data.Set.List

/-!
# Balanced parentheses

Balanced strings of parentheses spell Dyck words (`isBalanced_iff`), which are taken apart at their
first return. So they solve the rules of `Builder.balanced` (`solves_balancedRules`). A text can be
cut in many ways for these rules, but never for two different names, since the texts for one name
have as many closing parentheses as opening ones and those for the other have one more. So whatever
split is chosen the parser recognizes the balanced strings (`Parser.recognize_balanced`).
-/

namespace ChartParsing

/-- A string of parentheses that is not empty, in which no prefix has more closing than opening
ones, and the whole has as many of both. -/
structure IsBalanced (w : List Char) : Prop where
  ne_nil : w ≠ []
  parens : ∀ c ∈ w, c = '(' ∨ c = ')'
  prefixes : ∀ u, u <+: w → u.count ')' ≤ u.count '('
  totals : w.count '(' = w.count ')'

/-! ### Dyck words -/

/-- Steps up are opening parentheses, steps down are closing ones. -/
def paren : DyckStep → Char
  | .U => '('
  | .D => ')'

/-- The parentheses that a Dyck word spells. -/
def spelled (p : DyckWord) : List Char := p.toList.map paren

theorem paren_injective : Function.Injective paren := by
  intro x y h
  cases x <;> cases y <;> first | rfl | exact absurd h (by decide)

theorem count_map_paren (steps : List DyckStep) (x : DyckStep) :
    (steps.map paren).count (paren x) = steps.count x :=
  List.count_map_of_injective _ _ paren_injective x

theorem spelled_add (p q : DyckWord) : spelled (p + q) = spelled p ++ spelled q :=
  List.map_append

theorem spelled_nest (p : DyckWord) : spelled p.nest = '(' :: (spelled p ++ [')']) := by
  rw [spelled, DyckWord.nest, List.map_append, List.map_append]
  rfl

/-- A Dyck word that is not empty spells a balanced string. -/
theorem isBalanced_spelled {p : DyckWord} (hp : p ≠ 0) : IsBalanced (spelled p) where
  ne_nil h := hp (DyckWord.toList_eq_nil.1 (List.map_eq_nil_iff.1 h))
  parens c hc := by
    obtain ⟨x, -, rfl⟩ := List.mem_map.1 hc
    cases x
    · exact .inl rfl
    · exact .inr rfl
  prefixes u hu := by
    rw [List.prefix_iff_eq_take.1 hu, spelled, ← List.map_take]
    calc
      ((p.toList.take u.length).map paren).count ')' = (p.toList.take u.length).count .D :=
        count_map_paren _ .D
      _ ≤ (p.toList.take u.length).count .U := p.count_D_le_count_U u.length
      _ = ((p.toList.take u.length).map paren).count '(' := (count_map_paren _ .U).symm
  totals := calc
    (spelled p).count '(' = p.toList.count .U := count_map_paren p.toList .U
    _ = p.toList.count .D := p.count_U_eq_count_D
    _ = (spelled p).count ')' := (count_map_paren p.toList .D).symm

/-- The balanced strings are those that Dyck words spell. -/
theorem isBalanced_iff {w : List Char} : IsBalanced w ↔ ∃ p : DyckWord, p ≠ 0 ∧ spelled p = w := by
  constructor
  · intro h
    have hsteps : w ∈ Set.range (List.map paren) := by
      rw [Set.range_list_map]
      intro c hc
      rcases h.parens c hc with rfl | rfl
      · exact ⟨.U, rfl⟩
      · exact ⟨.D, rfl⟩
    obtain ⟨steps, rfl⟩ := hsteps
    let p : DyckWord := {
      toList := steps
      count_U_eq_count_D := by
        rw [← count_map_paren, ← count_map_paren]
        exact h.totals
      count_D_le_count_U i := by
        rw [← count_map_paren, ← count_map_paren]
        exact h.prefixes _ ((List.take_prefix i steps).map paren) }
    refine ⟨p, ?_, rfl⟩
    rintro hp
    exact h.ne_nil (List.map_eq_nil_iff.2 (DyckWord.toList_eq_nil.2 hp))
  · rintro ⟨p, hp, rfl⟩
    exact isBalanced_spelled hp

variable {u v w : List Char}

theorem isBalanced_pair : IsBalanced ['(', ')'] :=
  isBalanced_iff.2 ⟨DyckWord.nest 0, DyckWord.nest_ne_zero, rfl⟩

theorem IsBalanced.append (hu : IsBalanced u) (hv : IsBalanced v) : IsBalanced (u ++ v) := by
  obtain ⟨p, hp, rfl⟩ := isBalanced_iff.1 hu
  obtain ⟨q, hq, rfl⟩ := isBalanced_iff.1 hv
  refine isBalanced_iff.2 ⟨p + q, ?_, spelled_add p q⟩
  intro h
  have htotal := congrArg DyckWord.toList h
  exact hp (DyckWord.toList_eq_nil.1 (List.append_eq_nil_iff.1 htotal).1)

theorem IsBalanced.nest (hu : IsBalanced u) : IsBalanced ('(' :: (u ++ [')'])) := by
  obtain ⟨p, hp, rfl⟩ := isBalanced_iff.1 hu
  exact isBalanced_iff.2 ⟨p.nest, DyckWord.nest_ne_zero, spelled_nest p⟩

/-- A balanced string is a pair of parentheses, around nothing or around a balanced string, or it
is two balanced strings, the first of which ends where it first returns. -/
theorem IsBalanced.cases (h : IsBalanced w) : w = ['(', ')'] ∨
    (∃ u, IsBalanced u ∧ w = '(' :: (u ++ [')'])) ∨
    ∃ u v, IsBalanced u ∧ IsBalanced v ∧ w = u ++ v := by
  obtain ⟨p, hp, rfl⟩ := isBalanced_iff.1 h
  have hsplit := DyckWord.nest_insidePart_add_outsidePart hp
  by_cases houtside : p.outsidePart = 0
  · rw [houtside, add_zero] at hsplit
    rw [← hsplit, spelled_nest]
    by_cases hinside : p.insidePart = 0
    · rw [hinside]
      exact .inl rfl
    · exact .inr (.inl ⟨_, isBalanced_spelled hinside, rfl⟩)
  · refine .inr (.inr ⟨spelled p.insidePart.nest, spelled p.outsidePart,
      isBalanced_spelled DyckWord.nest_ne_zero, isBalanced_spelled houtside, ?_⟩)
    rw [← spelled_add, hsplit]

/-! ### The grammar -/

/-- The declarations of `Builder.balanced`. -/
def balancedRules : Declarations String where
  start := "S"
  terminals := ["(", ")"]
  nonterminals := ["S", "L", "R", "A"]
  binary := [("S", "S", "S"), ("S", "L", "R"), ("S", "L", "A"), ("A", "S", "R")]
  unit := [("L", "("), ("R", ")")]

/-- The texts that each name of `balancedRules` stands for. -/
def balancedTexts : String → List Char → Prop
  | "S" => IsBalanced
  | "A" => fun w => ∃ u, IsBalanced u ∧ w = u ++ [')']
  | "L" => fun w => w = ['(']
  | "R" => fun w => w = [')']
  | _ => fun _ => False

theorem solves_balancedRules : balancedRules.Solves balancedTexts where
  unit := by
    simp only [balancedRules, List.forall_mem_cons]
    exact ⟨rfl, rfl, by simp⟩
  binary := by
    simp only [balancedRules, List.forall_mem_cons]
    refine ⟨fun u v hu hv => IsBalanced.append hu hv, fun u v hu hv => ?_, fun u v hu hv => ?_,
      fun u v hu hv => ?_, by simp⟩
    · obtain rfl : u = ['('] := hu
      obtain rfl : v = [')'] := hv
      exact isBalanced_pair
    · obtain rfl : u = ['('] := hu
      obtain ⟨inside, hinside, rfl⟩ : ∃ inside, IsBalanced inside ∧ v = inside ++ [')'] := hv
      exact hinside.nest
    · obtain rfl : v = [')'] := hv
      exact ⟨u, hu, rfl⟩
  ne_nil s h := by
    unfold balancedTexts at h
    split at h
    · exact h.ne_nil rfl
    · obtain ⟨u, -, hw⟩ := h
      simp at hw
    · cases h
    · cases h
    · exact h
  last_rule s w h := by
    unfold balancedTexts at h
    split at h
    · rcases h.cases with rfl | ⟨u, hu, rfl⟩ | ⟨u, v, hu, hv, rfl⟩
      · exact .inr ⟨['('], [')'], rfl, "L", "R", by decide, rfl, rfl⟩
      · exact .inr ⟨['('], u ++ [')'], rfl, "L", "A", by decide, rfl, u, hu, rfl⟩
      · exact .inr ⟨u, v, rfl, "S", "S", by decide, hu, hv⟩
    · obtain ⟨u, hu, rfl⟩ := h
      exact .inr ⟨u, [')'], rfl, "S", "R", by decide, hu, rfl⟩
    · exact .inl ⟨("L", "("), by decide, rfl, h.symm⟩
    · exact .inl ⟨("R", ")"), by decide, rfl, h.symm⟩
    · exact h.elim

/-- A balanced string does not become another one by a closing parenthesis. -/
theorem IsBalanced.not_append_closing (hu : IsBalanced u) : ¬IsBalanced (u ++ [')']) := by
  intro h
  have htotals := hu.totals
  have hmore := h.totals
  rw [List.count_append, List.count_append, List.count_singleton_self,
    List.count_eq_zero.2 (show '(' ∉ [')'] by decide)] at hmore
  omega

/-- No text is cut for two names. -/
theorem cutsAgree_balancedRules : balancedRules.CutsAgree balancedTexts := by
  have hname : ∀ {s u v}, balancedRules.Cuts balancedTexts s u v → s = "S" ∨ s = "A" := by
    rintro s u v ⟨first, second, hr, -⟩
    simp only [balancedRules, List.mem_cons, Prod.mk.injEq] at hr
    tauto
  have hdisjoint : ∀ w, balancedTexts "S" w → ¬balancedTexts "A" w := by
    rintro w hw ⟨u, hu, rfl⟩
    exact hu.not_append_closing hw
  refine Declarations.cutsAgree_of_disjoint fun s s' u v u' v' hcut hcut' happend => ?_
  have hw := solves_balancedRules.of_cuts hcut
  have hw' := solves_balancedRules.of_cuts hcut'
  rw [← happend] at hw'
  rcases hname hcut with rfl | rfl <;> rcases hname hcut' with rfl | rfl
  · rfl
  · exact absurd hw' (hdisjoint _ hw)
  · exact absurd hw (hdisjoint _ hw')
  · rfl

namespace Parser

/-- The grammar of balanced parentheses is built over any table, and with the first or with the
last split to win a text is recognized exactly when it is a balanced string that is not empty. -/
theorem recognize_balanced (before : NameTable) : ∃ g after,
    Builder.balanced.build before = (.ok g, after) ∧ ∀ names, after.GrowsTo names →
      ∀ policy : Policy Symbol, policy = .rightmost ∨ policy = .leftmost → ∀ text, ∃ r,
        (Parser.mk g policy none).recognize names text = .ok r ∧
        (r = true ↔ IsBalanced text.toList) := by
  obtain ⟨d, hd, hc⟩ : ∃ d, Builder.balanced.describe = .ok d ∧ d.check = .ok balancedRules :=
    ⟨_, rfl, rfl⟩
  obtain ⟨g, after, hbuild, hrecognize⟩ :=
    exists_recognize_of_solves hd hc solves_balancedRules cutsAgree_balancedRules before
  refine ⟨g, after, hbuild, fun names hnames policy hp => ?_⟩
  rcases hp with rfl | rfl
  · exact hrecognize names hnames _ Policy.rightmost_isDecisive
  · exact hrecognize names hnames _ Policy.leftmost_isDecisive

end Parser

end ChartParsing
