import ChartParsing.Proofs.Parser.Solutions
import Mathlib.Tactic.IntervalCases

/-!
# Numeric literals

The numeric literals and their parts solve the rules of `Builder.number` (`solves_numberRules`).
Every text that these rules cut is cut at one place only, which can be seen from the text
(`length_of_cuts`): before the exponent if there is one, else before the fraction, else before the
last digit. So nothing is ever lost to another split, and a parser without options recognizes the
numeric literals (`Parser.recognize_number`).
-/

namespace ChartParsing

/-! ### The literals -/

/-- One or more ASCII digits. -/
structure IsDigits (w : List Char) : Prop where
  ne_nil : w ≠ []
  digits : ∀ c ∈ w, c.isDigit

/-- A point and digits. -/
def IsFraction (w : List Char) : Prop := ∃ ds, IsDigits ds ∧ w = '.' :: ds

/-- Digits and a fraction. -/
def IsDecimal (w : List Char) : Prop := ∃ ds f, IsDigits ds ∧ IsFraction f ∧ w = ds ++ f

/-- A sign of an exponent. -/
def IsSign (c : Char) : Prop := c = '+' ∨ c = '-'

/-- An exponent with its sign and digits, if exponents are allowed. -/
def IsScale (exponent : Bool) (w : List Char) : Prop :=
  exponent = true ∧ ∃ sign ds, IsSign sign ∧ IsDigits ds ∧ w = 'e' :: sign :: ds

/-- Digits, then maybe a fraction, and after a fraction maybe an exponent. -/
def IsNumeral (exponent : Bool) (w : List Char) : Prop :=
  IsDigits w ∨ IsDecimal w ∨ ∃ u v, IsDecimal u ∧ IsScale exponent v ∧ w = u ++ v

theorem isDigit_iff_mem {c : Char} :
    c.isDigit ↔ c ∈ ['0', '1', '2', '3', '4', '5', '6', '7', '8', '9'] := by
  constructor
  · intro h
    have hlow : 48 ≤ c.toNat ∧ c.toNat ≤ 57 := by
      simpa [Char.isDigit, UInt32.le_iff_toNat_le] using h
    obtain ⟨hlow, hhigh⟩ := hlow
    rw [← Char.ofNat_toNat c]
    interval_cases c.toNat <;> decide
  · exact List.all_eq_true.1 (by decide) c

/-- The digits of the grammar are the names of one digit. -/
theorem mem_digits_iff {s : String} :
    s ∈ Builder.digits ↔ ∃ c : Char, c.isDigit ∧ s.toList = [c] := by
  have hdigits : Builder.digits =
      ['0', '1', '2', '3', '4', '5', '6', '7', '8', '9'].map String.singleton := rfl
  rw [hdigits, List.mem_map]
  refine exists_congr fun c => and_congr isDigit_iff_mem.symm ⟨fun h => ?_, fun h => ?_⟩
  · rw [← h, String.toList_singleton]
  · rw [← String.toList_inj, String.toList_singleton, h]

variable {exponent : Bool} {u v w : List Char} {c : Char}

theorem IsDigits.not_mem (h : IsDigits w) (hc : c.isDigit = false) : c ∉ w := by
  intro hmem
  have := h.digits c hmem
  rw [hc] at this
  cases this

theorem isDigits_singleton (h : c.isDigit) : IsDigits [c] :=
  ⟨List.cons_ne_nil c [], by simpa using h⟩

theorem IsDigits.append (hu : IsDigits u) (hv : IsDigits v) : IsDigits (u ++ v) :=
  ⟨List.append_ne_nil_of_left_ne_nil hu.ne_nil v, by
    intro c hc
    rcases List.mem_append.1 hc with hc | hc
    · exact hu.digits c hc
    · exact hv.digits c hc⟩

/-- Digits are one digit, or digits before a last one. -/
theorem IsDigits.cases (h : IsDigits w) : (∃ c : Char, c.isDigit ∧ w = [c]) ∨
    ∃ ds, ∃ c : Char, IsDigits ds ∧ c.isDigit ∧ w = ds ++ [c] := by
  rcases List.eq_nil_or_concat w with rfl | ⟨ds, c, rfl⟩
  · exact absurd rfl h.ne_nil
  · rw [List.concat_eq_append] at h ⊢
    have hc : c.isDigit := h.digits c (by simp)
    by_cases hds : ds = []
    · exact .inl ⟨c, hc, by rw [hds, List.nil_append]⟩
    · exact .inr ⟨ds, c, ⟨hds, fun x hx => h.digits x (List.mem_append_left _ hx)⟩, hc, rfl⟩

/-! ### Where a text is cut -/

/-- The length of the left part of the only cut of a text: the point of a fraction and the letter
of an exponent stand alone, the sign of an exponent belongs to its left part, and digits come before
an exponent, a fraction or a last digit. -/
def cutPlace : List Char → Nat
  | '.' :: _ => 1
  | ['e', _] => 1
  | 'e' :: _ => 2
  | w => if 'e' ∈ w then w.idxOf 'e' else if '.' ∈ w then w.idxOf '.' else w.length - 1

/-- A text that begins with digits is cut behind them. -/
theorem cutPlace_of_isDigits (hu : IsDigits u) (v : List Char) :
    cutPlace (u ++ v) = if 'e' ∈ u ++ v then (u ++ v).idxOf 'e'
      else if '.' ∈ u ++ v then (u ++ v).idxOf '.' else (u ++ v).length - 1 := by
  obtain ⟨c, u, rfl⟩ := List.exists_cons_of_ne_nil hu.ne_nil
  have hpoint : c ≠ '.' := fun h => hu.not_mem (c := '.') rfl (h ▸ List.mem_cons_self)
  have hletter : c ≠ 'e' := fun h => hu.not_mem (c := 'e') rfl (h ▸ List.mem_cons_self)
  rw [List.cons_append]
  unfold cutPlace
  split
  · rename_i h
    exact absurd (List.cons.inj h).1 hpoint
  · rename_i h
    exact absurd (List.cons.inj h).1 hletter
  · rename_i h
    exact absurd (List.cons.inj h).1 hletter
  · rfl

theorem cutPlace_digit (hu : IsDigits u) (hc : c.isDigit) : cutPlace (u ++ [c]) = u.length := by
  have hall := hu.append (isDigits_singleton hc)
  rw [cutPlace_of_isDigits hu, if_neg (hall.not_mem rfl), if_neg (hall.not_mem rfl),
    List.length_append]
  rfl

theorem IsDecimal.ne_nil (h : IsDecimal w) : w ≠ [] := by
  obtain ⟨ds, f, hds, -, rfl⟩ := h
  exact List.append_ne_nil_of_left_ne_nil hds.ne_nil f

theorem IsNumeral.ne_nil (h : IsNumeral exponent w) : w ≠ [] := by
  rcases h with h | h | ⟨u, v, hu, -, rfl⟩
  · exact IsDigits.ne_nil h
  · exact IsDecimal.ne_nil h
  · exact List.append_ne_nil_of_left_ne_nil hu.ne_nil v

theorem IsFraction.not_mem (h : IsFraction w) : 'e' ∉ w := by
  obtain ⟨ds, hds, rfl⟩ := h
  simpa using hds.not_mem (c := 'e') rfl

theorem IsDecimal.not_mem (h : IsDecimal w) : 'e' ∉ w := by
  obtain ⟨ds, f, hds, hf, rfl⟩ := h
  rw [List.mem_append, not_or]
  exact ⟨hds.not_mem rfl, hf.not_mem⟩

theorem cutPlace_fraction (hu : IsDigits u) (hv : IsFraction v) :
    cutPlace (u ++ v) = u.length := by
  have hletter : 'e' ∉ u ++ v := IsDecimal.not_mem ⟨u, v, hu, hv, rfl⟩
  obtain ⟨ds, hds, rfl⟩ := hv
  rw [cutPlace_of_isDigits hu, if_neg hletter, if_pos (by simp),
    List.idxOf_append_of_notMem (hu.not_mem rfl), List.idxOf_cons_self, Nat.add_zero]

theorem cutPlace_scale (hu : IsDecimal u) (hv : IsScale exponent v) :
    cutPlace (u ++ v) = u.length := by
  have hletter := hu.not_mem
  obtain ⟨ds, f, hds, -, rfl⟩ := hu
  obtain ⟨-, sign, ds', -, -, rfl⟩ := hv
  have hplace := cutPlace_of_isDigits hds (f ++ 'e' :: sign :: ds')
  rw [← List.append_assoc] at hplace
  rw [hplace, if_pos (by simp), List.idxOf_append_of_notMem hletter, List.idxOf_cons_self,
    Nat.add_zero]

/-! ### The grammar -/

/-- The declarations of `Builder.number`. -/
def numberRules (exponent : Bool) : Declarations String where
  start := "Number"
  terminals := Builder.digits ++ [".", "+", "-"] ++ if exponent then ["e"] else []
  nonterminals := ["Number", "N1", "Integer", "Fraction", "T1", "Scale", "N2", "T2", "Digit",
    "Sign"]
  binary := [("Number", "Integer", "Digit"), ("Number", "N1", "Scale"),
    ("Number", "Integer", "Fraction"), ("N1", "Integer", "Fraction"),
    ("Integer", "Integer", "Digit"), ("Fraction", "T1", "Integer"), ("Scale", "N2", "Integer"),
    ("N2", "T2", "Sign")]
  unit := Builder.digits.map (Prod.mk "Number") ++ Builder.digits.map (Prod.mk "Integer") ++
    [("T1", ".")] ++ (if exponent then [("T2", "e")] else []) ++
    Builder.digits.map (Prod.mk "Digit") ++ [("Sign", "+"), ("Sign", "-")]

/-- The texts that each name of `numberRules` stands for. -/
def numberTexts (exponent : Bool) : String → List Char → Prop
  | "Number" => IsNumeral exponent
  | "N1" => IsDecimal
  | "Integer" => IsDigits
  | "Fraction" => IsFraction
  | "T1" => fun w => w = ['.']
  | "Scale" => IsScale exponent
  | "N2" => fun w => exponent = true ∧ ∃ sign, IsSign sign ∧ w = ['e', sign]
  | "T2" => fun w => exponent = true ∧ w = ['e']
  | "Digit" => fun w => ∃ c : Char, c.isDigit ∧ w = [c]
  | "Sign" => fun w => ∃ sign, IsSign sign ∧ w = [sign]
  | _ => fun _ => False

theorem exists_describe_number (exponent : Bool) : ∃ d, (Builder.number exponent).describe = .ok d ∧
    d.check = .ok (numberRules exponent) := by
  cases exponent
  · exact ⟨_, rfl, rfl⟩
  · exact ⟨_, rfl, rfl⟩

/-- A digit is a unit rule of the three names that stand for digits. -/
theorem digit_mem_unit {s : String} (hs : s = "Number" ∨ s = "Integer" ∨ s = "Digit")
    (hc : c.isDigit) : (s, String.singleton c) ∈ (numberRules exponent).unit := by
  have hdigit : String.singleton c ∈ Builder.digits :=
    mem_digits_iff.2 ⟨c, hc, String.toList_singleton c⟩
  rcases hs with rfl | rfl | rfl
  · simp [numberRules, hdigit]
  · simp [numberRules, hdigit]
  · simp [numberRules, hdigit]

theorem unit_numberTexts : ∀ r ∈ (numberRules exponent).unit,
    numberTexts exponent r.1 r.2.toList := by
  have hdigits : ∀ s ∈ Builder.digits, ∃ c : Char, c.isDigit ∧ s.toList = [c] :=
    fun _ => mem_digits_iff.1
  simp only [numberRules, List.forall_mem_append, List.forall_mem_map, List.forall_mem_cons]
  refine ⟨⟨⟨⟨⟨fun s hs => ?_, fun s hs => ?_⟩, rfl, by simp⟩, ?_⟩, hdigits⟩,
    ⟨'+', .inl rfl, rfl⟩, ⟨'-', .inr rfl, rfl⟩, by simp⟩
  · obtain ⟨c, hc, hs⟩ := hdigits s hs
    exact hs ▸ .inl (isDigits_singleton hc)
  · obtain ⟨c, hc, hs⟩ := hdigits s hs
    exact hs ▸ isDigits_singleton hc
  · cases exponent
    · simp
    · simpa using ⟨rfl, rfl⟩

theorem binary_numberTexts : ∀ r ∈ (numberRules exponent).binary, ∀ u v,
    numberTexts exponent r.2.1 u → numberTexts exponent r.2.2 v →
      numberTexts exponent r.1 (u ++ v) := by
  have hmore : ∀ u v, IsDigits u → (∃ c : Char, c.isDigit ∧ v = [c]) → IsDigits (u ++ v) := by
    rintro u v hu ⟨c, hc, rfl⟩
    exact hu.append (isDigits_singleton hc)
  simp only [numberRules, List.forall_mem_cons]
  refine ⟨fun u v hu hv => .inl (hmore u v hu hv), fun u v hu hv => .inr (.inr ⟨u, v, hu, hv, rfl⟩),
    fun u v hu hv => .inr (.inl ⟨u, v, hu, hv, rfl⟩), fun u v hu hv => ⟨u, v, hu, hv, rfl⟩, hmore,
    fun u v hu hv => ⟨v, hv, ?_⟩, fun u v hu hv => ?_, fun u v hu hv => ?_, by simp⟩
  · obtain rfl : u = ['.'] := hu
    rfl
  · obtain ⟨hexponent, sign, hsign, rfl⟩ : exponent = true ∧
      ∃ sign, IsSign sign ∧ u = ['e', sign] := hu
    exact ⟨hexponent, sign, v, hsign, hv, rfl⟩
  · obtain ⟨hexponent, rfl⟩ : exponent = true ∧ u = ['e'] := hu
    obtain ⟨sign, hsign, rfl⟩ : ∃ sign, IsSign sign ∧ v = [sign] := hv
    exact ⟨hexponent, sign, hsign, rfl⟩

/-- The last rule of digits. -/
theorem last_rule_of_isDigits {s : String} (hs : s = "Number" ∨ s = "Integer") (h : IsDigits w) :
    (∃ r ∈ (numberRules exponent).unit, r.1 = s ∧ r.2.toList = w) ∨
      ∃ u v, u ++ v = w ∧ (numberRules exponent).Cuts (numberTexts exponent) s u v := by
  rcases h.cases with ⟨c, hc, rfl⟩ | ⟨ds, c, hds, hc, rfl⟩
  · exact .inl ⟨_, digit_mem_unit (hs.imp_right .inl) hc, rfl, String.toList_singleton c⟩
  · have hrule : (s, "Integer", "Digit") ∈ (numberRules exponent).binary := by
      rcases hs with rfl | rfl
      · simp [numberRules]
      · simp [numberRules]
    exact .inr ⟨ds, [c], rfl, "Integer", "Digit", hrule, hds, c, hc, rfl⟩

/-- The literals and their parts solve the rules. -/
theorem solves_numberRules (exponent : Bool) :
    (numberRules exponent).Solves (numberTexts exponent) where
  unit := unit_numberTexts
  binary := binary_numberTexts
  ne_nil s h := by
    unfold numberTexts at h
    split at h
    · exact IsNumeral.ne_nil h rfl
    · exact IsDecimal.ne_nil h rfl
    · exact IsDigits.ne_nil h rfl
    · obtain ⟨ds, -, hw⟩ := h
      cases hw
    · cases h
    · obtain ⟨-, sign, ds, -, -, hw⟩ := h
      cases hw
    · obtain ⟨-, sign, -, hw⟩ := h
      cases hw
    · cases h.2
    · obtain ⟨c, -, hw⟩ := h
      cases hw
    · obtain ⟨sign, -, hw⟩ := h
      cases hw
    · exact h
  last_rule s w h := by
    unfold numberTexts at h
    split at h
    · rcases h with h | ⟨ds, f, hds, hf, rfl⟩ | ⟨u, v, hu, hv, rfl⟩
      · exact last_rule_of_isDigits (.inl rfl) h
      · exact .inr ⟨ds, f, rfl, "Integer", "Fraction", by simp [numberRules], hds, hf⟩
      · exact .inr ⟨u, v, rfl, "N1", "Scale", by simp [numberRules], hu, hv⟩
    · obtain ⟨ds, f, hds, hf, rfl⟩ := h
      exact .inr ⟨ds, f, rfl, "Integer", "Fraction", by simp [numberRules], hds, hf⟩
    · exact last_rule_of_isDigits (.inr rfl) h
    · obtain ⟨ds, hds, rfl⟩ := h
      exact .inr ⟨['.'], ds, rfl, "T1", "Integer", by simp [numberRules], rfl, hds⟩
    · exact .inl ⟨("T1", "."), by simp [numberRules], rfl, h.symm⟩
    · obtain ⟨hexponent, sign, ds, hsign, hds, rfl⟩ := h
      exact .inr ⟨['e', sign], ds, rfl, "N2", "Integer", by simp [numberRules],
        ⟨hexponent, sign, hsign, rfl⟩, hds⟩
    · obtain ⟨hexponent, sign, hsign, rfl⟩ := h
      exact .inr ⟨['e'], [sign], rfl, "T2", "Sign", by simp [numberRules], ⟨hexponent, rfl⟩,
        sign, hsign, rfl⟩
    · obtain ⟨rfl, rfl⟩ := h
      exact .inl ⟨("T2", "e"), by simp [numberRules], rfl, rfl⟩
    · obtain ⟨c, hc, rfl⟩ := h
      exact .inl ⟨_, digit_mem_unit (.inr (.inr rfl)) hc, rfl, String.toList_singleton c⟩
    · obtain ⟨sign, rfl | rfl, rfl⟩ := h
      · exact .inl ⟨("Sign", "+"), by simp [numberRules], rfl, rfl⟩
      · exact .inl ⟨("Sign", "-"), by simp [numberRules], rfl, rfl⟩
    · exact h.elim

/-- Every text that is cut is cut at one place. -/
theorem length_of_cuts {s : String}
    (h : (numberRules exponent).Cuts (numberTexts exponent) s u v) :
    u.length = cutPlace (u ++ v) := by
  obtain ⟨first, second, hr, hu, hv⟩ := h
  simp only [numberRules, List.mem_cons, Prod.mk.injEq, List.not_mem_nil, or_false] at hr
  have hdigit : IsDigits u → (∃ c : Char, c.isDigit ∧ v = [c]) → u.length = cutPlace (u ++ v) := by
    rintro hu ⟨c, hc, rfl⟩
    exact (cutPlace_digit hu hc).symm
  have hfraction : IsDigits u → IsFraction v → u.length = cutPlace (u ++ v) :=
    fun hu hv => (cutPlace_fraction hu hv).symm
  rcases hr with ⟨-, rfl, rfl⟩ | ⟨-, rfl, rfl⟩ | ⟨-, rfl, rfl⟩ | ⟨-, rfl, rfl⟩ | ⟨-, rfl, rfl⟩ |
    ⟨-, rfl, rfl⟩ | ⟨-, rfl, rfl⟩ | ⟨-, rfl, rfl⟩
  · exact hdigit hu hv
  · exact (cutPlace_scale hu hv).symm
  · exact hfraction hu hv
  · exact hfraction hu hv
  · exact hdigit hu hv
  · obtain rfl : u = ['.'] := hu
    rfl
  · obtain ⟨-, sign, -, rfl⟩ : exponent = true ∧ ∃ sign, IsSign sign ∧ u = ['e', sign] := hu
    obtain ⟨c, v, rfl⟩ := List.exists_cons_of_ne_nil (IsDigits.ne_nil hv)
    rfl
  · obtain ⟨-, rfl⟩ : exponent = true ∧ u = ['e'] := hu
    obtain ⟨sign, -, rfl⟩ : ∃ sign, IsSign sign ∧ v = [sign] := hv
    rfl

namespace Parser

/-- The grammar of numeric literals is built over any table, with exponents or without, and a
parser without options recognizes a text exactly when it is a numeric literal. -/
theorem recognize_number (exponent : Bool) (before : NameTable) : ∃ g after,
    (Builder.number exponent).build before = (.ok g, after) ∧ ∀ names, after.GrowsTo names →
      ∀ text, ∃ r, (ofGrammar g).recognize names text = .ok r ∧
        (r = true ↔ IsNumeral exponent text.toList) := by
  obtain ⟨d, hd, hc⟩ := exists_describe_number exponent
  have hcuts : (numberRules exponent).CutsAgree (numberTexts exponent) :=
    Declarations.cutsAgree_of_place fun _ _ _ => length_of_cuts
  obtain ⟨g, after, hbuild, hrecognize⟩ :=
    exists_recognize_of_solves hd hc (solves_numberRules exponent) hcuts before
  refine ⟨g, after, hbuild, fun names hnames => ?_⟩
  exact hrecognize names hnames _ Policy.rightmost_isDecisive

end Parser

end ChartParsing
