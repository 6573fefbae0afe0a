import ChartParsing.Proofs.Chart.Agreement
import ChartParsing.Proofs.Parser.Answers

/-!
# Languages that solve the rules of a grammar

Read as equations between languages, one for each name, the rules of a grammar have one solution
whose texts are not empty: what the names derive (`Declarations.Solves.derivesText_iff`). To know
what a grammar derives it is thus enough to write down languages and check them against the rules.
If no text is cut by the rules in two ways that give different names (`Declarations.CutsAgree`),
no choice among the splits loses anything, and a parser recognizes the language of the start
symbol (`Parser.exists_recognize_of_solves`).
-/

namespace ChartParsing

namespace Declarations

/-- A rule for a name cuts a text into texts of the languages of its right side. -/
def Cuts (d : Declarations String) (L : String → List Char → Prop) (s : String)
    (u v : List Char) : Prop :=
  ∃ first second, (s, first, second) ∈ d.binary ∧ L first u ∧ L second v

/-- Languages, one for each name, that the rules lead into and that have nothing else: no empty
text, and only texts that some rule gives. -/
structure Solves (d : Declarations String) (L : String → List Char → Prop) : Prop where
  unit : ∀ r ∈ d.unit, L r.1 r.2.toList
  binary : ∀ r ∈ d.binary, ∀ u v, L r.2.1 u → L r.2.2 v → L r.1 (u ++ v)
  ne_nil : ∀ s, ¬L s []
  last_rule : ∀ s w, L s w →
    (∃ r ∈ d.unit, r.1 = s ∧ r.2.toList = w) ∨ ∃ u v, u ++ v = w ∧ d.Cuts L s u v

/-- Where a text can be cut in two ways, the names for one way are the names for the other. -/
def CutsAgree (d : Declarations String) (L : String → List Char → Prop) : Prop :=
  ∀ s s' u v u' v', d.Cuts L s u v → d.Cuts L s' u' v' → u ++ v = u' ++ v' → d.Cuts L s u' v'

variable {d : Declarations String} {d' : Declarations Symbol} {names : NameTable}
variable {L : String → List Char → Prop} {s : String} {a : Symbol}

/-- Cuts agree if there is one place at which each text is cut. -/
theorem cutsAgree_of_place {place : List Char → Nat}
    (h : ∀ s u v, d.Cuts L s u v → u.length = place (u ++ v)) : d.CutsAgree L := by
  intro s s' u v u' v' hcut hcut' happend
  have hlength : u.length = u'.length := by
    rw [h s u v hcut, h s' u' v' hcut', happend]
  obtain ⟨rfl, rfl⟩ := List.append_inj happend hlength
  exact hcut

/-- Cuts agree if the texts that are cut for different names are different. -/
theorem cutsAgree_of_disjoint
    (h : ∀ s s' u v u' v', d.Cuts L s u v → d.Cuts L s' u' v' → u ++ v = u' ++ v' → s = s') :
    d.CutsAgree L := by
  intro s s' u v u' v' hcut hcut' happend
  exact h s s' u v u' v' hcut hcut' happend ▸ hcut'

theorem Solves.of_cuts (hL : d.Solves L) {u v : List Char} (h : d.Cuts L s u v) : L s (u ++ v) := by
  obtain ⟨first, second, hr, hu, hv⟩ := h
  exact hL.binary _ hr u v hu hv

section Read

variable (hL : d.Solves L) (hread : d.IsRead names d')

include hL hread

/-- What a name derives belongs to its language. -/
theorem Solves.of_derivesText {w : List Char} (hs : names.IsHandle s a)
    (h : (Grammar.ofDeclarations d').DerivesText names.Spells a w) : L s w := by
  induction hn : w.length using Nat.strongRecOn generalizing w s a with
  | _ n ih =>
    rcases h.cases with ⟨x, t, rfl, ht, hspells⟩ | ⟨b, c, u, v, rfl, hrule, hu, hv⟩
    · obtain ⟨right, hr, hright⟩ := hread.exists_unitNames hs ht
      have hname : right = String.singleton x :=
        Except.ok.inj ((NameTable.resolve_of_find? hright).symm.trans hspells)
      have htext := hL.unit _ hr
      rwa [hname, String.toList_singleton] at htext
    · obtain ⟨first, second, hr, hfirst, hsecond⟩ := hread.exists_binaryNames hs hrule
      have := List.length_pos_iff.2 hu.ne_nil
      have := List.length_pos_iff.2 hv.ne_nil
      rw [List.length_append] at hn
      exact hL.binary _ hr u v (ih _ (by omega) hfirst hu rfl) (ih _ (by omega) hsecond hv rfl)

/-- What belongs to the language of a name is derived by it. -/
theorem Solves.derivesText (hd : d.IsConsistent) {w : List Char} (hs : names.IsHandle s a)
    (h : L s w) : (Grammar.ofDeclarations d').DerivesText names.Spells a w := by
  induction hn : w.length using Nat.strongRecOn generalizing w s a with
  | _ n ih =>
    rcases hL.last_rule s w h with ⟨r, hr, rfl, rfl⟩ | ⟨u, v, rfl, first, second, hr, hu, hv⟩
    · obtain ⟨x, hx⟩ := exists_eq_singleton (hd.length_eq r.2 (hd.unit_mem r hr).2)
      obtain ⟨t, hright, ht⟩ := hread.exists_unitRule hs hr
      rw [hx] at hright ⊢
      rw [String.toList_singleton]
      exact .unit ht (NameTable.resolve_of_find? hright)
    · -- no language has the empty text, so both parts are shorter
      obtain ⟨b, c, hfirst, hsecond, hrule⟩ := hread.exists_binaryRule hs hr
      have hu0 : 0 < u.length := List.length_pos_iff.2 fun h0 => hL.ne_nil first (h0 ▸ hu)
      have hv0 : 0 < v.length := List.length_pos_iff.2 fun h0 => hL.ne_nil second (h0 ▸ hv)
      rw [List.length_append] at hn
      exact .binary hrule (ih _ (by omega) hfirst hu rfl) (ih _ (by omega) hsecond hv rfl)

/-- Languages that solve the rules are what the names derive. -/
theorem Solves.derivesText_iff (hd : d.IsConsistent) {w : List Char}
    (hs : names.IsHandle s a) :
    (Grammar.ofDeclarations d').DerivesText names.Spells a w ↔ L s w :=
  ⟨hL.of_derivesText hread hs, hL.derivesText hread hd hs⟩

/-- A split derives a symbol exactly when it cuts the text for the name of the symbol. -/
theorem Solves.derivesAt_iff (hd : d.IsConsistent) (hs : names.IsHandle s a) {text : List Char}
    {i l k : Nat} : (Grammar.ofDeclarations d').DerivesAt names.Spells text i l k a ↔
      0 < k ∧ k < l ∧ d.Cuts L s (slice text i k) (slice text (i + k) (l - k)) := by
  refine and_congr_right fun _ => and_congr_right fun _ => ?_
  constructor
  · rintro ⟨b, c, hrule, hu, hv⟩
    obtain ⟨first, second, hr, hfirst, hsecond⟩ := hread.exists_binaryNames hs hrule
    exact ⟨first, second, hr, hL.of_derivesText hread hfirst hu,
      hL.of_derivesText hread hsecond hv⟩
  · rintro ⟨first, second, hr, hu, hv⟩
    obtain ⟨b, c, hfirst, hsecond, hrule⟩ := hread.exists_binaryRule hs hr
    exact ⟨b, c, hrule, hL.derivesText hread hd hfirst hu, hL.derivesText hread hd hsecond hv⟩

/-- If the cuts of every text agree, the splits of every span derive the same symbols. -/
theorem Solves.isUniform (hd : d.IsConsistent) (hcuts : d.CutsAgree L) (text : List Char) :
    (Grammar.ofDeclarations d').IsUniform names.Spells text := by
  intro i l _ hi k m a b ha hb
  have hname : ∀ {k a}, (Grammar.ofDeclarations d').DerivesAt names.Spells text i l k a →
      ∃ s, names.IsHandle s a := by
    rintro k a ⟨-, -, b, c, hrule, -⟩
    obtain ⟨r, -, hleft, -⟩ :=
      exists_of_mem_right hread.binary (Grammar.mem_get_binaryRules.1 hrule)
    exact ⟨r.1, hleft⟩
  obtain ⟨s, hs⟩ := hname ha
  obtain ⟨s', hs'⟩ := hname hb
  obtain ⟨-, hkl, hcut⟩ := (hL.derivesAt_iff hread hd hs).1 ha
  obtain ⟨hm, hml, hcut'⟩ := (hL.derivesAt_iff hread hd hs').1 hb
  refine (hL.derivesAt_iff hread hd hs).2 ⟨hm, hml, hcuts s s' _ _ _ _ hcut hcut' ?_⟩
  rw [slice_append (Nat.le_of_lt hkl), slice_append (Nat.le_of_lt hml)]

end Read

end Declarations

/-- Checked declarations that a builder describes are built, over any table, as their reading. -/
theorem Builder.exists_build_of_check {b : Builder} {d : Description} {c : Declarations String}
    (hd : b.describe = .ok d) (hc : d.check = .ok c) (before : NameTable) :
    ∃ c' after, b.build before = (.ok (Grammar.ofDeclarations c'), after) ∧
      ∀ names, after.GrowsTo names →
        c.IsRead names c' ∧ (Grammar.ofDeclarations c').IsBuiltOver names := by
  obtain ⟨c', after, hbuild, hread⟩ := Description.exists_build_of_check hc before
  refine ⟨c', after, ?_, fun names hnames => ⟨hread names hnames, d, before, after, hbuild, hnames⟩⟩
  rw [Builder.build, hd]
  exact hbuild

namespace Parser

/-- If languages solve the rules of a grammar and the cuts of every text agree, the parsers that
choose a split wherever there is one recognize the language of the start symbol. -/
theorem recognize_of_solves {c : Declarations String} {c' : Declarations Symbol}
    {names : NameTable} {L : String → List Char → Prop} {policy : Policy Symbol}
    (hconsistent : c.IsConsistent) (hL : c.Solves L) (hcuts : c.CutsAgree L)
    (hread : c.IsRead names c') (hg : (Grammar.ofDeclarations c').IsBuiltOver names)
    (hp : policy.IsDecisive) (text : String) : ∃ r,
      (Parser.mk (.ofDeclarations c') policy none).recognize names text = .ok r ∧
      (r = true ↔ L c.start text.toList) := by
  have ha := admits_of_no_limit (.ofDeclarations c') policy text
  obtain ⟨r, hr, -⟩ := recognize_of_admits hg hp.staysOver ha
  refine ⟨r, hr, ?_⟩
  have hexact := Grammar.isExactOver_of_isUniform hg.reads hp
    (hL.isUniform hread hconsistent hcuts text.toList)
    (show 0 + text.toList.length ≤ text.toList.length by omega)
  have hiff := recognize_iff_of_isExactOver hg hp.staysOver ha hexact
  rw [hr, Except.ok.injEq] at hiff
  rw [hiff]
  exact hL.derivesText_iff hread hconsistent hread.start

/-- The same for the grammar of a builder, which is built over any table. -/
theorem exists_recognize_of_solves {b : Builder} {d : Description} {c : Declarations String}
    {L : String → List Char → Prop} (hd : b.describe = .ok d) (hc : d.check = .ok c)
    (hL : c.Solves L) (hcuts : c.CutsAgree L) (before : NameTable) :
    ∃ g after, b.build before = (.ok g, after) ∧ ∀ names, after.GrowsTo names →
      ∀ policy : Policy Symbol, policy.IsDecisive → ∀ text, ∃ r,
        (Parser.mk g policy none).recognize names text = .ok r ∧
        (r = true ↔ L c.start text.toList) := by
  obtain ⟨c', after, hbuild, hover⟩ := Builder.exists_build_of_check hd hc before
  have hconsistent := (Description.check_eq_ok_iff.1 hc).2
  refine ⟨_, after, hbuild, fun names hnames policy hp text => ?_⟩
  obtain ⟨hread, hg⟩ := hover names hnames
  exact recognize_of_solves hconsistent hL hcuts hread hg hp text

end Parser

end ChartParsing
