import ChartParsing.Proofs.Chart.Diagnostics
import ChartParsing.Proofs.Parser.Answers

/-!
# How a text fails to parse

A text beyond the limit is refused before anything is done with it, and the empty text has a
failure of its own. For every other text the chart is filled, with diagnostics on exactly the
characters to which no unit rule expands; the parser then either gives a tree and recognizes
the text, or fails with these diagnostics and this chart. A text with such a character always
fails.
-/

namespace ChartParsing

/-- Whether some unit rule of a grammar expands to the name that a character makes. -/
def Grammar.accountsFor (g : Grammar Symbol) (names : NameTable) (c : Char) : Bool :=
  g.unitRules.pairs.any fun r => decide (names.resolve? r.2 = some (String.singleton c))

/-- The name of a symbol, asked for in one way or the other. -/
theorem NameTable.spells_iff {names : NameTable} {x : Symbol} {c : Char} :
    names.Spells x c ↔ names.resolve? x = some (String.singleton c) := by
  rw [Spells, resolve]
  cases names.resolve? x <;> simp

theorem Grammar.IsBuiltOver.accountsFor_iff {g : Grammar Symbol} {names : NameTable}
    (h : g.IsBuiltOver names) {c : Char} :
    g.accountsFor names c = true ↔ ∃ a t, t ∈ g.unitRules.get a ∧ names.Spells t c := by
  obtain ⟨-, d, -, -, rfl⟩ := h.exists_declarations
  simp only [accountsFor, List.any_eq_true, decide_eq_true_eq, NameTable.spells_iff,
    mem_get_unitRules]
  constructor
  · rintro ⟨⟨a, t⟩, hr, hs⟩
    exact ⟨a, t, Groups.mem_pairs_ofPairs.1 hr, hs⟩
  · rintro ⟨a, t, hr, hs⟩
    exact ⟨(a, t), Groups.mem_pairs_ofPairs.2 hr, hs⟩

namespace Parser

variable {p : Parser} {names : NameTable} {text : String}

/-- A text beyond the limit is not filled. -/
theorem fill_of_limit_lt {limit : Int} (h : p.maxLength = some limit)
    (hlt : limit < text.length) :
    p.fill names text = .error (.failure (.ofLength text.length limit)) := by
  rw [fill, h, Option.filter_some, if_pos (decide_eq_true hlt)]

/-- A text that is not filled has no other answer. -/
theorem answers_of_fill_eq_error {e : ParseError} (h : p.fill names text = .error e) :
    p.recognize names text = .error e ∧ (p.parse names text).result = .error e := by
  rw [recognize, parse, h]
  exact ⟨rfl, rfl⟩

section Built

variable (hg : p.grammar.IsBuiltOver names) (hp : p.policy.IsHonest)

include hg

/-- A text that is filled has a tree and is recognized, or has the failure of its chart and is
not recognized. -/
theorem answers_of_fill {f : Filling Symbol} (hfill : p.fill names text = .ok f)
    (h0 : f.chart.size ≠ 0) :
    (∃ root, (p.parse names text).result = .ok root ∧ p.recognize names text = .ok true) ∨
    ∃ start, names.resolve p.grammar.start = .ok start ∧
      (p.parse names text).result = .error (.failure (.ofChart start f.chart)) ∧
      p.recognize names text = .ok false := by
  obtain ⟨start, hstart⟩ := hg.exists_start
  have hrecognize : p.recognize names text = .ok (f.chart.accepts p.grammar.start) := by
    rw [recognize, hfill]
    rfl
  rw [parse_of_fill hfill, conclude, if_neg h0, hstart, hrecognize, Chart.bind_lookup_top?]
  cases hfind : f.chart.topTrees.find? fun t => decide (t.kind = p.grammar.start) with
  | some root =>
    have hkind := List.find?_some hfind
    have haccepts := Chart.accepts_iff.2
      ⟨root, List.mem_of_find?_eq_some hfind, of_decide_eq_true hkind⟩
    exact .inl ⟨root, rfl, congrArg _ haccepts⟩
  | none =>
    have haccepts : f.chart.accepts p.grammar.start = false := by
      rw [Bool.eq_false_iff, ne_eq, Chart.accepts_iff]
      rintro ⟨t, ht, hkind⟩
      exact List.find?_eq_none.1 hfind t ht (decide_eq_true hkind)
    exact .inr ⟨start, rfl, rfl, congrArg _ haccepts⟩

/-- The diagnostics of the chart of a text mark the characters that no unit rule accounts for. -/
theorem diagnostics_of_fills {f : Filling Symbol} (hf : p.Fills names text f) (hne : text ≠ "") :
    f.chart.diagnostics = diagnosticsOn (p.grammar.accountsFor names) text.toList := by
  have hne' : text.toList ≠ [] := by simpa using hne
  exact hf.diagnostics_eq hg.reads hne' fun c => hg.accountsFor_iff

include hp

/-- All characters of a text that has a tree are accounted for. -/
theorem accountsFor_of_parse {root : Tree Symbol} (h : (p.parse names text).result = .ok root)
    {c : Char} (hc : c ∈ text.toList) : p.grammar.accountsFor names c = true := by
  obtain ⟨-, hfind⟩ := (parse_eq_ok_iff hg hp.staysOver).1 h
  have hderives := Grammar.derivesText_of_mem_treesAt hg.reads hp.onlyPicks
    (List.mem_of_find?_eq_some hfind)
  rw [slice_all] at hderives
  exact hg.accountsFor_iff.2 (hderives.exists_unit hc)

end Built

/-- What becomes of a text: too long, empty, parsed with every character accounted for, or not
parsed, with diagnostics on exactly the characters that are not. -/
theorem answer_or_failure (hg : p.grammar.IsBuiltOver names) (hp : p.policy.IsHonest)
    (text : String) :
    (∀ limit, p.maxLength = some limit → limit < text.length →
      ∃ failure : Failure, failure.kind = .tooLong ∧ failure.diagnostics = [] ∧
        failure.chart = none ∧ p.fill names text = .error (.failure failure) ∧
        p.recognize names text = .error (.failure failure) ∧
        (p.parse names text).result = .error (.failure failure)) ∧
    (p.Admits text → text = "" →
      p.recognize names text = .ok false ∧
      ∃ failure : Failure, failure.kind = .emptyInput ∧
        failure.diagnostics = [⟨0, "", "empty input"⟩] ∧
        (p.parse names text).result = .error (.failure failure)) ∧
    (p.Admits text → text ≠ "" → ∃ f, p.fill names text = .ok f ∧
      f.chart.diagnostics = diagnosticsOn (p.grammar.accountsFor names) text.toList ∧
      ((∃ root, (p.parse names text).result = .ok root) ↔ p.recognize names text = .ok true) ∧
      (f.chart.diagnostics ≠ [] → ∀ root, (p.parse names text).result ≠ .ok root) ∧
      ((∃ root, (p.parse names text).result = .ok root) ∨
        ∃ start failure, names.resolve p.grammar.start = .ok start ∧
          failure = Failure.ofChart start f.chart ∧
          (p.parse names text).result = .error (.failure failure) ∧
          p.recognize names text = .ok false ∧ failure.kind = .notDerived ∧
          failure.diagnostics = f.chart.diagnostics ∧ failure.chart = some f.chart ∧
          (failure.isLexical = true ↔
            ∃ c ∈ text.toList, p.grammar.accountsFor names c = false))) := by
  refine ⟨fun limit hlimit hlt => ?_, fun ha hempty => ?_, fun ha hne => ?_⟩
  · have hfill : p.fill names text = _ := fill_of_limit_lt hlimit hlt
    obtain ⟨hrecognize, hparse⟩ := answers_of_fill_eq_error hfill
    exact ⟨_, rfl, rfl, rfl, hfill, hrecognize, hparse⟩
  · subst hempty
    have hfill : p.fill names "" =
        .ok { Filling.start 0 with chart := (Chart.empty 0).note .noText } := by
      rw [fill_of_admits ha]
      rfl
    refine ⟨?_, ?_⟩
    · rw [recognize, hfill]
      rfl
    · rw [parse_of_fill hfill]
      exact ⟨_, rfl, rfl, rfl⟩
  · obtain ⟨f, hfill, hf⟩ := exists_fill hg hp.staysOver ha
    have hdiagnostics := diagnostics_of_fills hg hf hne
    have h0 : f.chart.size ≠ 0 := by
      have : text.toList.length ≠ 0 := by simpa using hne
      rw [hf.size]
      omega
    refine ⟨f, hfill, hdiagnostics,
      (recognize_eq_ok_true_iff_exists_root hg hp.staysOver ha).symm, ?_, ?_⟩
    · intro hbad root hroot
      rw [hdiagnostics] at hbad
      exact hbad (diagnosticsOn_eq_nil_iff.2 fun c hc => accountsFor_of_parse hg hp hroot hc)
    · rcases answers_of_fill hg hfill h0 with ⟨root, hroot, -⟩ | ⟨start, hstart, hparse, hno⟩
      · exact .inl ⟨root, hroot⟩
      · refine .inr ⟨start, _, hstart, rfl, hparse, hno, rfl, rfl, rfl, ?_⟩
        have hlexical : (Failure.ofChart start f.chart).isLexical = true ↔
            f.chart.diagnostics ≠ [] := by
          simp [Failure.isLexical, Failure.ofChart]
        rw [hlexical, hdiagnostics, ne_eq, diagnosticsOn_eq_nil_iff]
        simp

/-- With a limit of two letters, three are too many, none are no input, and a letter that the
grammar does not know is told by its position. -/
theorem letters_fail :
    let p : Parser := ⟨.letters, .rightmost, some 2⟩
    p.grammar.IsBuiltOver Grammar.letterNames ∧ p.policy.IsHonest ∧
      (∃ failure : Failure, failure.kind = .tooLong ∧
        (p.parse Grammar.letterNames "aaa").result = .error (.failure failure)) ∧
      (∃ failure : Failure, failure.kind = .emptyInput ∧
        (p.parse Grammar.letterNames "").result = .error (.failure failure)) ∧
      ∃ failure : Failure, (p.parse Grammar.letterNames "ab").result = .error (.failure failure) ∧
        failure.isLexical = true ∧ failure.diagnostics = [⟨1, "b", "unrecognized character"⟩] := by
  intro p
  have hg : p.grammar.IsBuiltOver Grammar.letterNames := Grammar.letters_isBuiltOver
  have hp : p.policy.IsHonest := Policy.rightmost_isHonest
  have ha : ∀ text : String, text.length ≤ 2 → p.Admits text := by
    intro text h limit hlimit
    cases hlimit
    omega
  obtain ⟨hlong, -⟩ := answer_or_failure hg hp "aaa"
  obtain ⟨-, hempty, -⟩ := answer_or_failure hg hp ""
  obtain ⟨-, -, hother⟩ := answer_or_failure hg hp "ab"
  obtain ⟨long, hkind, -, -, -, -, hparse⟩ := hlong 2 rfl (by decide)
  obtain ⟨-, empty, hkind', -, hparse'⟩ := hempty (ha "" (by decide)) rfl
  obtain ⟨f, -, hdiagnostics, -, hnone, hanswer⟩ := hother (ha "ab" (by decide)) (by decide)
  have hb : f.chart.diagnostics = [⟨1, "b", "unrecognized character"⟩] :=
    hdiagnostics.trans (by decide +kernel)
  have hne : f.chart.diagnostics ≠ [] := by simp [hb]
  rcases hanswer with ⟨root, hroot⟩ | ⟨-, failure, -, -, hfails, -, -, hsame, -, hlexical⟩
  · exact absurd hroot (hnone hne root)
  · refine ⟨hg, hp, ⟨long, hkind, hparse⟩, ⟨empty, hkind', hparse'⟩, failure, hfails, ?_, ?_⟩
    · exact hlexical.2 ⟨'b', by decide, by decide +kernel⟩
    · rw [hsame, hb]

end Parser

end ChartParsing
