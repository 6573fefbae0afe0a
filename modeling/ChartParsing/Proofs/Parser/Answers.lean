import ChartParsing.Parser.Basic
import ChartParsing.Proofs.Chart.Derivations

/-!
# What a parser answers

A parser fills the chart of every text within its limit (`Parser.exists_fill`), and its
answers are read off the trees over the whole text: it recognizes the text when one of them
has the start symbol, and the first such tree is the one it gives (`recognize_eq_ok_true_iff`,
`parse_eq_ok_iff`).
-/

namespace ChartParsing.Parser

variable {p : Parser} {names : NameTable} {text : String}

/-- The parser of a grammar without options. -/
def ofGrammar (g : Grammar Symbol) : Parser := ⟨g, .rightmost, none⟩

/-- Whether a text is within the limit of a parser. -/
def Admits (p : Parser) (text : String) : Prop :=
  ∀ limit, p.maxLength = some limit → (text.length : Int) ≤ limit

/-- A parser without a limit admits every text. -/
theorem admits_of_no_limit (g : Grammar Symbol) (policy : Policy Symbol) (text : String) :
    (Parser.mk g policy none).Admits text := by
  intro limit h
  cases h

theorem ofGrammar_admits (g : Grammar Symbol) (text : String) : (ofGrammar g).Admits text :=
  admits_of_no_limit g .rightmost text

/-- The trees over the whole text, as the recurrence gives them. -/
def rootTrees (p : Parser) (names : NameTable) (text : String) : List (Tree Symbol) :=
  p.grammar.treesAt (characterSymbol names) p.policy text.toList 0 text.toList.length

/-- A filling holds what all spans of a text add to it. -/
def Fills (p : Parser) (names : NameTable) (text : String) (f : Filling Symbol) : Prop :=
  f.IsFull p.grammar (characterSymbol names) p.policy text.toList

/-- A text within the limit is handed on to the grammar. -/
theorem fill_of_admits (h : p.Admits text) : p.fill names text =
    (p.grammar.fill (characterSymbol names) p.policy text.toList).mapError .breach := by
  have hf : p.maxLength.filter (fun limit : Int => decide (limit < text.length)) = none := by
    rw [Option.filter_eq_none_iff]
    intro limit hm
    have := h limit hm
    simpa using this
  rw [fill, hf]

/-- A text that is filled is within the limit. -/
theorem admits_of_fill {f : Filling Symbol} (h : p.fill names text = .ok f) : p.Admits text := by
  intro limit hm
  apply Int.not_lt.1
  intro hlt
  have hf : p.maxLength.filter (fun limit : Int => decide (limit < text.length)) =
      some limit := by
    rw [hm, Option.filter_some, if_pos (decide_eq_true hlt)]
  rw [fill, hf] at h
  cases h

/-- The answer to a text that is filled: what the chart says, after what was told on the way. -/
theorem parse_of_fill {f : Filling Symbol} (h : p.fill names text = .ok f) :
    p.parse names text =
      ⟨(p.conclude names f.chart).1, f.log ++ (p.conclude names f.chart).2⟩ := by
  rw [parse, h]

section Built

variable (hg : p.grammar.IsBuiltOver names) (hp : p.policy.StaysOver)

include hg hp

/-- The chart of a text within the limit is filled. -/
theorem exists_fill (h : p.Admits text) :
    ∃ f, p.fill names text = .ok f ∧ p.Fills names text f := by
  obtain ⟨f, hfill, hf⟩ := Grammar.fill_eq_ok hg.reads.isIndexed hp text.toList
  refine ⟨f, ?_, hf⟩
  rw [fill_of_admits h, hfill]
  rfl

theorem fills_of_fill {f : Filling Symbol} (h : p.fill names text = .ok f) :
    p.Fills names text f := by
  obtain ⟨f', hfill, hf⟩ := exists_fill hg hp (admits_of_fill h)
  rw [h, Except.ok.injEq] at hfill
  exact hfill ▸ hf

/-- A text within the limit is recognized or not by the trees over it. -/
theorem recognize_of_admits (h : p.Admits text) : ∃ b, p.recognize names text = .ok b ∧
    (b = true ↔ ∃ t ∈ p.rootTrees names text, t.kind = p.grammar.start) := by
  obtain ⟨f, hfill, hf⟩ := exists_fill hg hp h
  refine ⟨f.chart.accepts p.grammar.start, ?_, ?_⟩
  · rw [recognize, hfill]
    rfl
  · rw [Chart.accepts_iff, hf.topTrees_eq]
    rfl

/-- A text within the limit is recognized when a tree of the start symbol covers it. -/
theorem recognize_eq_ok_true_iff (h : p.Admits text) : p.recognize names text = .ok true ↔
    ∃ t ∈ p.rootTrees names text, t.kind = p.grammar.start := by
  obtain ⟨b, hb, hiff⟩ := recognize_of_admits hg hp h
  rw [hb, Except.ok.injEq, hiff]

/-- If the symbols of the trees over a text are those that derive it, the parser recognizes
the language of its grammar on the text. -/
theorem recognize_iff_of_isExactOver (h : p.Admits text)
    (hexact : p.grammar.IsExactOver (characterSymbol names) names.Spells p.policy text.toList 0
      text.toList.length) :
    p.recognize names text = .ok true ↔
      p.grammar.DerivesText names.Spells p.grammar.start text.toList := by
  have hroots := hexact p.grammar.start
  rw [slice_all] at hroots
  rw [recognize_eq_ok_true_iff hg hp h]
  exact hroots

/-- The tree that a parser gives is the first tree of the start symbol over the text. -/
theorem parse_eq_ok_iff {root : Tree Symbol} : (p.parse names text).result = .ok root ↔
    p.Admits text ∧
      (p.rootTrees names text).find? (fun t => decide (t.kind = p.grammar.start)) = some root := by
  by_cases ha : p.Admits text
  · obtain ⟨f, hfill, hf⟩ := exists_fill hg hp ha
    rw [parse_of_fill hfill, conclude, hf.size]
    by_cases h0 : text.toList.length = 0
    · have hroots : p.rootTrees names text = [] := by
        rw [rootTrees, h0, Grammar.treesAt_zero]
      rw [if_pos (by omega), hroots]
      simp
    · obtain ⟨start, hstart⟩ := hg.exists_start
      have hroots : f.chart.topTrees = p.rootTrees names text := hf.topTrees_eq
      rw [if_neg (by omega), hstart, Chart.bind_lookup_top?, hroots]
      cases (p.rootTrees names text).find? (fun t => decide (t.kind = p.grammar.start)) with
      | none => simp
      | some root => simp [ha]
  · constructor
    · intro h
      rw [parse] at h
      cases hfill : p.fill names text with
      | error e =>
        rw [hfill] at h
        cases h
      | ok f => exact absurd (admits_of_fill hfill) ha
    · exact fun h => absurd h.1 ha

/-- A text over which there is one tree, of the start symbol, has this tree. -/
theorem parse_eq_ok_of_rootTrees (ha : p.Admits text) {root : Tree Symbol}
    (hroots : p.rootTrees names text = [root]) (hkind : root.kind = p.grammar.start) :
    (p.parse names text).result = .ok root := by
  rw [parse_eq_ok_iff hg hp, hroots]
  exact ⟨ha, List.find?_cons_of_pos (decide_eq_true hkind)⟩

/-- A text within the limit is recognized exactly when the parser gives a tree of it. -/
theorem recognize_eq_ok_true_iff_exists_root (h : p.Admits text) :
    p.recognize names text = .ok true ↔ ∃ root, (p.parse names text).result = .ok root := by
  rw [recognize_eq_ok_true_iff hg hp h]
  constructor
  · rintro ⟨t, ht, hkind⟩
    have hsome :
        ((p.rootTrees names text).find? fun t => decide (t.kind = p.grammar.start)).isSome :=
      List.find?_isSome.2 ⟨t, ht, decide_eq_true hkind⟩
    obtain ⟨root, hroot⟩ := Option.isSome_iff_exists.1 hsome
    exact ⟨root, (parse_eq_ok_iff hg hp).2 ⟨h, hroot⟩⟩
  · rintro ⟨root, hroot⟩
    obtain ⟨-, hfind⟩ := (parse_eq_ok_iff hg hp).1 hroot
    have hkind := List.find?_some hfind
    exact ⟨root, List.mem_of_find?_eq_some hfind, of_decide_eq_true hkind⟩

end Built

end ChartParsing.Parser
