import ChartParsing.Proofs.Grammar.Reversal
import ChartParsing.Proofs.Parser.SameRules

/-!
# Reading backwards

Letting the first split win is letting the last one win, read backwards. When the two symbols on
the right side of each binary rule change places, the names over a span of a text are those over
the same span of the text read backwards, counted from the end
(`Grammar.ReversedRules.hasKind_iff`). The charts are reversals of each other, and the same texts
are recognized (`Parser.leftmost_of_backwards`).
-/

namespace ChartParsing

/-- A text read backwards. -/
def textBackwards (text : String) : String := String.ofList text.toList.reverse

/-- A span counted from the end of a text of a size. -/
def Span.backwards (size : Int) (s : Span) : Span := ⟨size - s.stop, s.length⟩

/-- A diagnostic with its position counted from the end of a text of a size. -/
def Diagnostic.backwards (size : Int) (d : Diagnostic) : Diagnostic :=
  { d with position := size - 1 - d.position }

/-- A chart, read in a table of its own, that shows what another one does when its text is read
backwards: cells with the same names over the same spans, and the same diagnostics. Charts without
a text have no cells, and the remark that there is no text stays in its place. -/
structure Chart.IsReversal (names names' : NameTable) (a b : Chart (Cell Symbol)) : Prop where
  size : b.size = a.size
  cells : ∀ s, Option.Rel (Cell.SameNames names names') (a.get? s) (b.get? (s.backwards a.size))
  diagnostics : a.size ≠ 0 → b.diagnostics = (a.diagnostics.map (·.backwards a.size)).reverse
  noText : a.size = 0 →
    a.spans = [] ∧ b.spans = [] ∧ a.diagnostics = [.noText] ∧ b.diagnostics = [.noText]

/-- Two grammars, each over a table of its own, have the same start symbol and unit rules by name,
and each other's binary rules with the right sides read backwards. -/
structure Grammar.ReversedRules (g : Grammar Symbol) (names : NameTable) (h : Grammar Symbol)
    (names' : NameTable) : Prop where
  start : names.resolve g.start = names'.resolve h.start
  unit : ∀ left right, g.HasUnitRule names left right ↔ h.HasUnitRule names' left right
  binary : ∀ left first second,
    g.HasBinaryRule names left first second ↔ h.HasBinaryRule names' left second first

theorem toList_textBackwards (text : String) :
    (textBackwards text).toList = text.toList.reverse :=
  String.toList_ofList

theorem length_textBackwards (text : String) : (textBackwards text).length = text.length := by
  rw [← String.length_toList, toList_textBackwards, List.length_reverse, String.length_toList]

section Positions

/-- The characters of a text read backwards, with their positions. -/
theorem zipIdx_reverse (text : List Char) : text.reverse.zipIdx =
    (text.zipIdx.map fun e => (e.1, text.length - 1 - e.2)).reverse := by
  apply List.ext_getElem
  · simp
  · intro i hi hi'
    have hlt : i < text.length := by simpa using hi
    simp only [List.getElem_reverse, List.getElem_map, List.getElem_zipIdx, List.length_map,
      List.length_zipIdx]
    congr 1
    omega

/-- The diagnostics on a text read backwards. -/
theorem diagnosticsOn_reverse (known : Char → Bool) (text : List Char) :
    diagnosticsOn known text.reverse =
      ((diagnosticsOn known text).map (·.backwards text.length)).reverse := by
  rw [diagnosticsOn, zipIdx_reverse, List.filterMap_reverse, List.filterMap_map, diagnosticsOn,
    List.map_filterMap]
  refine congrArg List.reverse (List.filterMap_congr fun e he => ?_)
  have hlt : e.2 < text.length :=
    (List.getElem?_eq_some_iff.1 (List.mem_zipIdx_iff_getElem?.1 he)).1
  by_cases hk : known e.1 = true
  · simp [hk]
  · simp only [Function.comp_apply, hk, Bool.false_eq_true, if_false, Option.map_some,
      Diagnostic.backwards, Diagnostic.unrecognized, Option.some.injEq, Diagnostic.mk.injEq,
      and_true]
    omega

/-- The spans of a text, counted from its end. -/
theorem Span.backwards_mk {n i l : Nat} (h : i + l ≤ n) :
    (⟨i, l⟩ : Span).backwards n = ⟨(n - (i + l) : Nat), l⟩ := by
  simp only [Span.backwards, Span.stop, Span.mk.injEq, and_true]
  omega

/-- The spans of a text are the same when they are counted from its end. -/
theorem Span.backwards_mem_spansOf_iff {n : Nat} {s : Span} :
    s.backwards n ∈ Grammar.spansOf n ↔ s ∈ Grammar.spansOf n := by
  simp only [Grammar.mem_spansOf]
  obtain ⟨start, length⟩ := s
  constructor
  · rintro ⟨i, l, hl, hi, heq⟩
    simp only [backwards, stop, Span.mk.injEq] at heq
    refine ⟨n - (i + l), l, hl, by omega, ?_⟩
    simp only [Span.mk.injEq]
    omega
  · rintro ⟨i, l, hl, hi, heq⟩
    rw [heq]
    exact ⟨n - (i + l), l, hl, by omega, backwards_mk hi⟩

end Positions

namespace Grammar

variable {g h : Grammar Symbol} {names names' : NameTable} {text : List Char} {i l : Nat}

section Kinds

variable (hrev : g.ReversedRules names h names')

include hrev

/-- A split of a span joins what its counterpart joins, whose left part is as long as the right part
of the split, if this is so for the names over all shorter spans. -/
theorem ReversedRules.joinsKind_iff
    (hshorter : ∀ m, m < l → ∀ j x, j + m ≤ text.length →
      (g.HasKind names .rightmost text j m x ↔
        h.HasKind names' .leftmost text.reverse (text.length - (j + m)) m x))
    (hi : i + l ≤ text.length) (k : Nat) (s : String) :
    g.JoinsKind names .rightmost text i l k s ↔
      h.JoinsKind names' .leftmost text.reverse (text.length - (i + l)) l (l - k) s := by
  have hbounds : (0 < k ∧ k < l) ↔ 0 < l - k ∧ l - k < l := by omega
  rw [JoinsKind, JoinsKind, ← and_assoc, ← and_assoc, hbounds]
  refine and_congr_right fun hk => ?_
  have hleft := fun x => hshorter k (by omega) i x (by omega)
  have hright := fun x => hshorter (l - k) (by omega) (i + k) x (by omega)
  have hbehind : text.length - (i + l) + (l - k) = text.length - (i + k) := by omega
  have hbefore : text.length - (i + k + (l - k)) = text.length - (i + l) := by omega
  have hlength : l - (l - k) = k := by omega
  simp only [hleft, hright, hbehind, hbefore, hlength, hrev.binary]
  constructor
  · rintro ⟨first, second, hrule, hx, hy⟩
    exact ⟨second, first, hrule, hy, hx⟩
  · rintro ⟨second, first, hrule, hy, hx⟩
    exact ⟨first, second, hrule, hx, hy⟩

variable (hg : g.IsBuiltOver names) (hh : h.IsBuiltOver names')

include hg hh

/-- The names over a span by the last splits are those over the span counted from the end of the
text read backwards, by the first splits. -/
theorem ReversedRules.hasKind_iff (hi : i + l ≤ text.length) (s : String) :
    g.HasKind names .rightmost text i l s ↔
      h.HasKind names' .leftmost text.reverse (text.length - (i + l)) l s := by
  induction l using Nat.strongRecOn generalizing i s with
  | _ l ih =>
    match l with
    | 0 => exact iff_of_false not_hasKind_zero not_hasKind_zero
    | 1 =>
      have hchar : text.reverse[text.length - (i + 1)]? = text[i]? := by
        rw [List.getElem?_reverse (by omega)]
        congr 1
        omega
      simp only [hasKind_one, hrev.unit, hchar]
    | l + 2 =>
      have hjoins := hrev.joinsKind_iff (fun m hm j x hj => ih m hm hj x) hi
      rw [hasKind_of_two_le hg Policy.rightmost_prefers (by omega),
        hasKind_of_two_le hh Policy.leftmost_prefers (by omega)]
      -- the last split of one span is the counterpart of the first split of the other
      constructor
      · rintro ⟨k, hk, hbest⟩
        refine ⟨l + 2 - k, (hjoins k s).1 hk, fun m s' hm => ?_⟩
        have hback : l + 2 - (l + 2 - m) = m := Nat.sub_sub_self (Nat.le_of_lt hm.2.1)
        have hle : ((l + 2 - m : Nat) : Int) ≤ k :=
          hbest (l + 2 - m) s' ((hjoins _ s').2 (hback.symm ▸ hm))
        show ((l + 2 - k : Nat) : Int) ≤ m
        omega
      · rintro ⟨k, hk, hbest⟩
        have hback : l + 2 - (l + 2 - k) = k := Nat.sub_sub_self (Nat.le_of_lt hk.2.1)
        refine ⟨l + 2 - k, (hjoins _ s).2 (hback.symm ▸ hk), fun m s' hm => ?_⟩
        have hle : (k : Int) ≤ (l + 2 - m : Nat) := hbest _ s' ((hjoins m s').1 hm)
        have hlt : m < l + 2 := hm.2.1
        show (m : Int) ≤ (l + 2 - k : Nat)
        omega

end Kinds

/-- Declarations and the same ones read backwards give grammars with reversed rules. -/
theorem reversedRules_ofDeclarations {d : Declarations String} {d' e' : Declarations Symbol}
    (h : d.IsRead names d') (h' : d.backwards.IsRead names' e') :
    (ofDeclarations d').ReversedRules names (ofDeclarations e') names' where
  start := by
    have hresolve : names.resolve d'.start = .ok d.start := NameTable.resolve_of_find? h.start
    have hresolve' : names'.resolve e'.start = .ok d.start := NameTable.resolve_of_find? h'.start
    exact hresolve.trans hresolve'.symm
  unit left right := by
    rw [hasUnitRule_ofDeclarations h, hasUnitRule_ofDeclarations h']
    rfl
  binary left first second := by
    rw [hasBinaryRule_ofDeclarations h, hasBinaryRule_ofDeclarations h',
      Declarations.mem_binary_backwards]

/-- A description that a grammar is built of is built backwards, over any table, as a grammar with
reversed rules. -/
theorem exists_build_backwards {d : Description} {before after : NameTable}
    (hb : d.build before = (.ok g, after)) (hnames : after.GrowsTo names) (before' : NameTable) :
    ∃ h after', d.backwards.build before' = (.ok h, after') ∧
      ∀ names', after'.GrowsTo names' → g.ReversedRules names h names' := by
  obtain ⟨c, c', hc, hread, rfl⟩ := Description.exists_check_of_build hb hnames
  obtain ⟨e', after', hb', hread'⟩ :=
    Description.exists_build_of_check (Description.check_backwards hc) before'
  exact ⟨_, after', hb', fun names' hgrows =>
    reversedRules_ofDeclarations hread (hread' names' hgrows)⟩

end Grammar

namespace Parser

variable {g h : Grammar Symbol} {names names' : NameTable} {limit : Option Int} {text : String}
variable {f f' : Filling Symbol}

section Charts

variable (hrev : g.ReversedRules names h names') (hg : g.IsBuiltOver names)
  (hh : h.IsBuiltOver names')

include hrev hg hh

/-- The cell over a span and the one over the span counted from the end have the same names. -/
theorem rel_get?_backwards (hf : (Parser.mk g .rightmost limit).Fills names text f)
    (hf' : (Parser.mk h .leftmost limit).Fills names' (textBackwards text) f') (s : Span) :
    Option.Rel (Cell.SameNames names names') (f.chart.get? s)
      (f'.chart.get? (s.backwards text.toList.length)) := by
  have hlength : (textBackwards text).toList.length = text.toList.length := by
    rw [toList_textBackwards, List.length_reverse]
  have hmem : s.backwards text.toList.length ∈
      Grammar.spansOf (textBackwards text).toList.length ↔
        s ∈ Grammar.spansOf text.toList.length := by
    rw [hlength]
    exact Span.backwards_mem_spansOf_iff
  by_cases hs : s ∈ Grammar.spansOf text.toList.length
  · rw [hf.get?_of_mem hs, hf'.get?_of_mem (hmem.2 hs)]
    obtain ⟨i, l, -, hi, rfl⟩ := Grammar.mem_spansOf.1 hs
    refine hg.rel_cellOver? hh Policy.rightmost_isDecisive.onlyPicks
      Policy.leftmost_isDecisive.onlyPicks fun x => ?_
    rw [Span.backwards_mk hi, toList_textBackwards]
    exact hrev.hasKind_iff hg hh hi x
  · rw [hf.get?_of_not_mem hs, hf'.get?_of_not_mem fun hs' => hs (hmem.1 hs')]
    exact .none

/-- What is filled by the first splits when everything is read backwards is a reversal of what is
filled by the last splits. -/
theorem isReversal_of_fills (hf : (Parser.mk g .rightmost limit).Fills names text f)
    (hf' : (Parser.mk h .leftmost limit).Fills names' (textBackwards text) f') :
    f.chart.IsReversal names names' f'.chart := by
  have hsize : f.chart.size = text.length := hf.size.trans (by rw [String.length_toList])
  have hsize' : f'.chart.size = text.length :=
    hf'.size.trans (by rw [String.length_toList, length_textBackwards])
  refine ⟨hsize'.trans hsize.symm, fun s => ?_, fun h0 => ?_, fun h0 => ?_⟩
  · rw [hsize, ← String.length_toList]
    exact rel_get?_backwards hrev hg hh hf hf' s
  · have hne : text ≠ "" := by
      rintro rfl
      exact h0 hsize
    have hne' : textBackwards text ≠ "" := by
      intro heq
      rw [hsize, ← length_textBackwards, heq] at h0
      exact h0 rfl
    rw [diagnostics_of_fills hg hf hne, diagnostics_of_fills hh hf' hne', hsize,
      toList_textBackwards, diagnosticsOn_reverse, ← String.length_toList]
    exact congrArg (fun known => ((diagnosticsOn known text.toList).map _).reverse)
      (hg.accountsFor_eq hh hrev.unit).symm
  · have hnil : text.toList = [] := by
      rw [← List.length_eq_zero_iff, String.length_toList]
      omega
    have hnil' : (textBackwards text).toList = [] := by
      rw [toList_textBackwards, hnil, List.reverse_nil]
    rw [Fills, hnil] at hf
    rw [Fills, hnil'] at hf'
    obtain ⟨hspans, hdiagnostics⟩ := hf.of_no_text
    obtain ⟨hspans', hdiagnostics'⟩ := hf'.of_no_text
    exact ⟨hspans, hspans', hdiagnostics, hdiagnostics'⟩

/-- The first splits recognize backwards what the last splits recognize. -/
theorem recognize_textBackwards (limit : Option Int) (text : String) :
    (Parser.mk g .rightmost limit).recognize names text =
      (Parser.mk h .leftmost limit).recognize names' (textBackwards text) := by
  refine recognize_eq_of_hasKind hg hh Policy.rightmost_isDecisive.staysOver
    Policy.leftmost_isDecisive.staysOver hrev.start (length_textBackwards text) fun s => ?_
  have hkinds : g.HasKind names .rightmost text.toList 0 text.toList.length s ↔ _ :=
    hrev.hasKind_iff hg hh (Nat.le_of_eq (Nat.zero_add _)) s
  rw [hkinds, toList_textBackwards, List.length_reverse, Nat.zero_add, Nat.sub_self]

end Charts

/-- Letting the first split win is letting the last one win, read backwards. A description that a
grammar is built of is also built backwards. Whatever grammar has the reversed rules, the chart
that it fills by the first splits for a text read backwards is a reversal of the one that is filled
by the last splits for the text, and it recognizes the text read backwards when the text is
recognized. -/
theorem leftmost_of_backwards {d : Description} {before after : NameTable}
    (hb : d.build before = (.ok g, after)) (hnames : after.GrowsTo names) :
    (∀ before', ∃ h after', d.backwards.build before' = (.ok h, after') ∧
      ∀ names', after'.GrowsTo names' → g.ReversedRules names h names') ∧
    ∀ h names', h.IsBuiltOver names' → g.ReversedRules names h names' → ∀ limit text,
      ((Parser.mk g .rightmost limit).Admits text → ∃ f f',
        (Parser.mk g .rightmost limit).fill names text = .ok f ∧
        (Parser.mk h .leftmost limit).fill names' (textBackwards text) = .ok f' ∧
        f.chart.IsReversal names names' f'.chart) ∧
      (Parser.mk g .rightmost limit).recognize names text =
        (Parser.mk h .leftmost limit).recognize names' (textBackwards text) := by
  have hg : g.IsBuiltOver names := ⟨d, before, after, hb, hnames⟩
  refine ⟨Grammar.exists_build_backwards hb hnames, fun h names' hh hrev limit text => ?_⟩
  refine ⟨fun ha => ?_, recognize_textBackwards hrev hg hh limit text⟩
  have ha' : (Parser.mk h .leftmost limit).Admits (textBackwards text) := by
    intro bound hbound
    rw [length_textBackwards]
    exact ha bound hbound
  obtain ⟨f, hfill, hf⟩ := exists_fill hg Policy.rightmost_isDecisive.staysOver ha
  obtain ⟨f', hfill', hf'⟩ := exists_fill hh Policy.leftmost_isDecisive.staysOver ha'
  exact ⟨f, f', hfill, hfill', isReversal_of_fills hrev hg hh hf hf'⟩

/-- A letter before a pair of letters that differ. -/
def beforePair : Description where
  start := .str "S"
  terminals := [.str "a", .str "b"]
  nonterminals := [.str "S", .str "A", .str "B", .str "P"]
  binary := [.tuple [.str "S", .str "A", .str "P"], .tuple [.str "P", .str "A", .str "B"]]
  unit := [.tuple [.str "A", .str "a"], .tuple [.str "B", .str "b"]]

/-- The pair comes first when the description is read backwards. -/
theorem beforePair_backwards : ∃ g names h names',
    beforePair.build .empty = (.ok g, names) ∧
    beforePair.backwards.build .empty = (.ok h, names') ∧
    h.IsBuiltOver names' ∧ g.ReversedRules names h names' ∧
    (Parser.mk g .rightmost none).Admits "aab" ∧
    (∃ f f', (Parser.mk g .rightmost none).fill names "aab" = .ok f ∧
      (Parser.mk h .leftmost none).fill names' "baa" = .ok f' ∧
      f.chart.IsReversal names names' f'.chart) ∧
    (Parser.mk h .leftmost none).recognize names' "baa" = .ok true := by
  let g : Grammar Symbol :=
    .ofDeclarations ⟨0, [1, 2], [0, 3, 4, 5], [(0, 3, 5), (5, 3, 4)], [(3, 1), (4, 2)]⟩
  let names : NameTable := ⟨["S", "a", "b", "A", "B", "P"]⟩
  have hb : beforePair.build .empty = (.ok g, names) := rfl
  have ha : (Parser.mk g .rightmost none).Admits "aab" := ofGrammar_admits g "aab"
  have htext : textBackwards "aab" = "baa" := by decide
  obtain ⟨hbuilt, hreversal⟩ := leftmost_of_backwards hb (.refl _)
  obtain ⟨h, names', hb', hrev⟩ := hbuilt .empty
  have hh : h.IsBuiltOver names' := ⟨_, _, _, hb', .refl _⟩
  obtain ⟨hcharts, hrecognize⟩ := hreversal h names' hh (hrev names' (.refl _)) none "aab"
  rw [htext] at hcharts hrecognize
  have htrue : (Parser.mk g .rightmost none).recognize names "aab" = .ok true :=
    eq_ok_of_toOption (by decide +kernel)
  exact ⟨g, names, h, names', hb, hb', hh, hrev names' (.refl _), ha, hcharts ha,
    hrecognize ▸ htrue⟩

/-- The remark that there is no text is not counted from the end: it stands at the same position
when everything is read backwards. -/
theorem noText_not_backwards :
    Grammar.letters.IsBuiltOver Grammar.letterNames ∧
    Grammar.letters.ReversedRules Grammar.letterNames .letters Grammar.letterNames ∧
    ∃ f f', (Parser.mk .letters .rightmost none).fill Grammar.letterNames "" = .ok f ∧
      (Parser.mk .letters .leftmost none).fill Grammar.letterNames (textBackwards "") = .ok f' ∧
      f'.chart.diagnostics ≠ (f.chart.diagnostics.map (·.backwards f.chart.size)).reverse := by
  let d : Declarations String := ⟨"S", ["a"], ["S"], [("S", "S", "S")], [("S", "a")]⟩
  have hread : d.IsRead Grammar.letterNames ⟨0, [1], [0], [(0, 0, 0)], [(0, 1)]⟩ :=
    ⟨rfl, .cons rfl .nil, .cons rfl .nil, .cons ⟨rfl, rfl, rfl⟩ .nil, .cons ⟨rfl, rfl⟩ .nil⟩
  have hrev : Grammar.letters.ReversedRules Grammar.letterNames .letters Grammar.letterNames :=
    Grammar.reversedRules_ofDeclarations hread hread
  exact ⟨Grammar.letters_isBuiltOver, hrev, _, _, rfl, rfl, by decide⟩

end Parser

end ChartParsing
