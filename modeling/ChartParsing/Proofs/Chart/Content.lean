import ChartParsing.Proofs.Chart.Order
import ChartParsing.Proofs.Chart.Recurrence
import ChartParsing.Proofs.Steps

/-!
# What a span adds to a filling

Each span of a text adds to the chart a cell with the trees of the recurrence over it, or
nothing if there are none; a span of one character may add a diagnostic, a longer one holds a
contest, and both may be worth an entry of the log. `Filling.IsAfter` says that a filling
holds what a list of spans adds and nothing else.
-/

namespace ChartParsing

variable {σ : Type} [DecidableEq σ]

namespace Grammar

section

variable (g : Grammar σ) (lookup : Char → Option σ) (policy : Policy σ) (text : List Char)

/-- The trees of the recurrence over a span. -/
def treesOver (s : Span) : List (Tree σ) :=
  g.treesAt lookup policy text s.start.toNat s.length.toNat

/-- The cell over a span, if there are trees over it. -/
def cellOver? (s : Span) : Option (Cell σ) :=
  if (g.treesOver lookup policy text s).isEmpty then none
  else some ⟨s, g.treesOver lookup policy text s⟩

/-- The diagnostic on a character over which there are no trees. -/
def diagnosticOver? (s : Span) : Option Diagnostic :=
  if s.length = 1 ∧ (g.treesOver lookup policy text s).isEmpty then
    text[s.start.toNat]?.map fun c => .unrecognized s.start (String.singleton c)
  else none

/-- The contest that is held for a longer span. -/
def contestOver (s : Span) : Contest σ :=
  let candidates := g.candidatesAt lookup policy text s.start.toNat s.length.toNat
  ⟨s, candidates, policy candidates⟩

/-- The contest of a span, if it has more than one character. -/
def contestOver? (s : Span) : Option (Contest σ) :=
  if s.length = 1 then none else some (g.contestOver lookup policy text s)

/-- What is told of a span: that its character is not recognized, or that its splits
compete for the cell that is committed. -/
def logOver? (s : Span) : Option LogEntry :=
  if s.length = 1 then
    if (g.treesOver lookup policy text s).isEmpty then
      text[s.start.toNat]?.map fun c => .unrecognized (String.singleton c) s.start
    else none
  else if (g.treesOver lookup policy text s).isEmpty then none
  else Filling.contestLog (g.contestOver lookup policy text s)

end

variable {g : Grammar σ} {lookup : Char → Option σ} {policy : Policy σ} {text : List Char}

@[simp] theorem treesOver_mk (i l : Nat) :
    g.treesOver lookup policy text ⟨i, l⟩ = g.treesAt lookup policy text i l := rfl

theorem cellOver?_eq_some_iff {s : Span} {c : Cell σ} :
    g.cellOver? lookup policy text s = some c ↔
      g.treesOver lookup policy text s ≠ [] ∧ c = ⟨s, g.treesOver lookup policy text s⟩ := by
  rw [cellOver?, Option.ite_none_left_eq_some, Option.some.injEq, List.isEmpty_iff,
    @eq_comm _ c]

theorem cellOver?_eq_none_iff {s : Span} :
    g.cellOver? lookup policy text s = none ↔ g.treesOver lookup policy text s = [] := by
  simp [cellOver?]

end Grammar

/-- What is remarked on a text as a whole: that it has no characters. -/
def remarksOn (text : List Char) : List Diagnostic :=
  if text.isEmpty then [.noText] else []

/-- The index that entries get when they are committed one by one, the latest first. -/
def Chart.indexOf {γ : Type} (es : List (Span × γ)) : SpanMap γ :=
  es.foldr (fun e m => m.insert e.1 e.2) .empty

/-- Charts over one text with the same entries and diagnostics, whose indexes were built by
committing the entries, are the same. -/
theorem Chart.eq_of_entries {γ : Type} {a b : Chart γ} (hs : a.size = b.size)
    (he : a.entries = b.entries) (hd : a.diagnostics = b.diagnostics)
    (ha : a.index = indexOf a.latest) (hb : b.index = indexOf b.latest) : a = b := by
  obtain ⟨size, latest, index, diagnostics, nodup, law⟩ := a
  obtain ⟨size', latest', index', diagnostics', nodup', law'⟩ := b
  have hl : latest = latest' := List.reverse_inj.1 he
  simp only at hs hd ha hb
  subst hl hs hd ha hb
  rfl

namespace Filling

/-- A filling holds what the spans `done` add to it, in that order, and nothing else. -/
structure IsAfter (g : Grammar σ) (lookup : Char → Option σ) (policy : Policy σ)
    (text : List Char) (done : List Span) (f : Filling σ) : Prop where
  size : f.chart.size = text.length
  entries : f.chart.entries =
    done.filterMap fun s => (g.cellOver? lookup policy text s).map fun c => (s, c)
  index : f.chart.index = Chart.indexOf f.chart.latest
  diagnostics : f.chart.diagnostics =
    remarksOn text ++ done.filterMap (g.diagnosticOver? lookup policy text)
  contests : f.contests = done.filterMap (g.contestOver? lookup policy text)
  log : f.log = done.filterMap (g.logOver? lookup policy text)

/-- A filling holds what all spans of a text add to it. -/
def IsFull (g : Grammar σ) (lookup : Char → Option σ) (policy : Policy σ) (text : List Char)
    (f : Filling σ) : Prop :=
  f.IsAfter g lookup policy text (Grammar.spansOf text.length)

variable {g : Grammar σ} {lookup : Char → Option σ} {policy : Policy σ} {text : List Char}
variable {done : List Span} {f : Filling σ}

theorem isAfter_start (hne : text ≠ []) : IsAfter g lookup policy text [] (start text.length) := by
  refine ⟨rfl, rfl, rfl, ?_, rfl, rfl⟩
  have he : text.isEmpty = false := by simpa using hne
  rw [remarksOn, he]
  rfl

/-- Only the spans of one character add diagnostics. -/
theorem IsFull.diagnostics_eq_shortest (h : f.IsFull g lookup policy text) :
    f.chart.diagnostics = remarksOn text ++
      (Grammar.shortestSpans text.length).filterMap (g.diagnosticOver? lookup policy text) := by
  have hlonger : (Grammar.longerSpans text.length).filterMap
      (g.diagnosticOver? lookup policy text) = [] := by
    rw [List.filterMap_eq_nil_iff]
    intro s hs
    obtain ⟨i, l, hl, -, rfl⟩ := Grammar.mem_longerSpans.1 hs
    have hlen : ¬ (l : Int) = 1 := by omega
    simp [Grammar.diagnosticOver?, hlen]
  rw [h.diagnostics, Grammar.spansOf, List.filterMap_append, hlonger, List.append_nil]

/-- The spans of the chart are those done spans that have a cell. -/
theorem IsAfter.spans_eq (h : f.IsAfter g lookup policy text done) :
    f.chart.spans = done.filter fun s => (g.cellOver? lookup policy text s).isSome := by
  rw [Chart.spans, h.entries, List.map_filterMap, ← List.filterMap_eq_filter]
  refine List.filterMap_congr fun s _ => ?_
  cases hc : g.cellOver? lookup policy text s <;> simp [Option.guard, hc]

/-- The chart of the empty text has no cells, and remarks that there is no text. -/
theorem IsFull.of_no_text (h : f.IsFull g lookup policy []) :
    f.chart.spans = [] ∧ f.chart.diagnostics = [.noText] := by
  refine ⟨?_, ?_⟩
  · rw [h.spans_eq]
    rfl
  · rw [h.diagnostics]
    rfl

/-- A span that is done has its cell in the chart. -/
theorem IsAfter.get?_of_mem (h : f.IsAfter g lookup policy text done) {s : Span} (hs : s ∈ done) :
    f.chart.get? s = g.cellOver? lookup policy text s := by
  ext c
  rw [← Chart.mem_entries_iff, h.entries, List.mem_filterMap]
  constructor
  · rintro ⟨s', -, hc⟩
    obtain ⟨c', hc', he⟩ := Option.map_eq_some_iff.1 hc
    cases he
    exact hc'
  · exact fun hc => ⟨s, hs, by rw [hc]; rfl⟩

/-- A span that is not done has no cell in the chart. -/
theorem IsAfter.get?_of_not_mem (h : f.IsAfter g lookup policy text done) {s : Span}
    (hs : s ∉ done) : f.chart.get? s = none := by
  rw [Option.eq_none_iff_forall_ne_some]
  intro c hc
  rw [← Chart.mem_entries_iff, h.entries, List.mem_filterMap] at hc
  obtain ⟨s', hs', hc⟩ := hc
  obtain ⟨c', -, he⟩ := Option.map_eq_some_iff.1 hc
  cases he
  exact hs hs'

end Filling

end ChartParsing
