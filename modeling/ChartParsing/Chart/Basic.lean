import ChartParsing.Breach
import ChartParsing.Chart.Cell
import ChartParsing.Diagnostic
import ChartParsing.SpanMap

/-!
# Charts

A chart assigns what was found, of type `γ`, to the spans of a text of a given size. Entries
are committed once each, within the bounds of the text, and keep the order in which they
were committed; the entry over the whole text is the `top`. An index finds the entry of a
span, and every chart carries the proof that it finds the committed entries and no others
(`mem_entries_iff`).
-/

namespace ChartParsing

/-- The first value listed for a span. -/
def entryOf {γ : Type} (span : Span) : List (Span × γ) → Option γ
  | [] => none
  | (s, c) :: rest => if s = span then some c else entryOf span rest

/-- The entries committed over a text, with the diagnostics on its characters. -/
structure Chart (γ : Type) where
  size : Int
  /-- The entries, the latest first. -/
  latest : List (Span × γ)
  index : SpanMap γ
  diagnostics : List Diagnostic
  nodup_spans : (latest.map (·.1)).Nodup
  get?_index : ∀ span, index.get? span = entryOf span latest
deriving DecidableEq, Repr

namespace Chart

variable {γ δ : Type}

theorem entryOf_eq_none_iff {span : Span} {es : List (Span × γ)} :
    entryOf span es = none ↔ span ∉ es.map (·.1) := by
  induction es with
  | nil => simp [entryOf]
  | cons e es ih =>
    obtain ⟨s, c⟩ := e
    by_cases h : s = span
    · simp [entryOf, h]
    · simp [entryOf, h, ih, Ne.symm h]

theorem entryOf_eq_some_iff {span : Span} {c : γ} {es : List (Span × γ)}
    (h : (es.map (·.1)).Nodup) : entryOf span es = some c ↔ (span, c) ∈ es := by
  induction es with
  | nil => simp [entryOf]
  | cons e es ih =>
    obtain ⟨s, d⟩ := e
    obtain ⟨hs, hn⟩ := List.nodup_cons.1 h
    by_cases he : s = span
    · subst he
      have : (s, c) ∉ es := fun hm => hs (List.mem_map.2 ⟨(s, c), hm, rfl⟩)
      simp [entryOf, this, eq_comm]
    · simp [entryOf, he, ih hn, Ne.symm he]

theorem entryOf_map (f : γ → δ) (span : Span) (es : List (Span × γ)) :
    entryOf span (es.map fun e => (e.1, f e.2)) = (entryOf span es).map f := by
  induction es with
  | nil => rfl
  | cons e es ih =>
    obtain ⟨s, c⟩ := e
    by_cases h : s = span <;> simp [entryOf, h, ih]

/-- The chart of a text of a size before anything was committed. -/
def empty (size : Int) : Chart γ := ⟨size, [], .empty, [], List.nodup_nil, fun _ => rfl⟩

/-- The entries in the order in which they were committed. -/
def entries (ch : Chart γ) : List (Span × γ) :=
  ch.latest.reverse

/-- What was committed over a span. -/
def get? (ch : Chart γ) (span : Span) : Option γ :=
  ch.index.get? span

/-- The spans with entries, in the order of commitment. -/
def spans (ch : Chart γ) : List Span :=
  ch.entries.map (·.1)

theorem mem_entries_iff {ch : Chart γ} {span : Span} {c : γ} :
    (span, c) ∈ ch.entries ↔ ch.get? span = some c := by
  rw [get?, ch.get?_index, entryOf_eq_some_iff ch.nodup_spans, entries, List.mem_reverse]

/-- Whether a span lies within the text. -/
def Fits (ch : Chart γ) (span : Span) : Prop :=
  0 ≤ span.start ∧ span.stop ≤ ch.size

instance (ch : Chart γ) (span : Span) : Decidable (ch.Fits span) :=
  inferInstanceAs (Decidable (_ ∧ _))

/-- The chart with an entry over a span that is free. -/
def enter (ch : Chart γ) (span : Span) (c : γ) (h : ch.get? span = none) : Chart γ where
  size := ch.size
  latest := (span, c) :: ch.latest
  index := ch.index.insert span c
  diagnostics := ch.diagnostics
  nodup_spans := by
    rw [get?, ch.get?_index, entryOf_eq_none_iff] at h
    exact List.nodup_cons.2 ⟨h, ch.nodup_spans⟩
  get?_index s := by
    rw [SpanMap.get?_insert, entryOf, ch.get?_index]
    simp only [eq_comm]

/-- Commits an entry over a span, which must be free and lie within the text. -/
def commit (ch : Chart γ) (span : Span) (c : γ) : Except Breach (Chart γ) :=
  if h : ch.get? span = none then
    if ch.Fits span then .ok (ch.enter span c h) else .error (.unfitCell span)
  else .error (.unfitCell span)

/-- The same chart with other values. -/
def map (f : γ → δ) (ch : Chart γ) : Chart δ where
  size := ch.size
  latest := ch.latest.map fun e => (e.1, f e.2)
  index := ch.index.map f
  diagnostics := ch.diagnostics
  nodup_spans := by
    rw [List.map_map]
    exact ch.nodup_spans
  get?_index span := by
    rw [SpanMap.get?_map, ch.get?_index, entryOf_map]

/-- Adds a diagnostic. -/
def note (ch : Chart γ) (d : Diagnostic) : Chart γ :=
  { ch with diagnostics := ch.diagnostics ++ [d] }

/-- What was committed over the whole text, if there is a text. -/
def top? (ch : Chart γ) : Option γ :=
  if ch.size = 0 then none else ch.get? ⟨0, ch.size⟩

/-- A chart as it is shown. -/
def literal (ch : Chart γ) : String :=
  "<Chart n=" ++ toString ch.size ++ " cells=" ++ toString ch.latest.length ++
    " diagnostics=" ++ toString ch.diagnostics.length ++ ">"

/-- Whether a tree of a symbol covers the whole text. -/
def accepts {σ : Type} [DecidableEq σ] (ch : Chart (Cell σ)) (kind : σ) : Bool :=
  match ch.top? with
  | some cell => cell.has kind
  | none => false

@[simp] theorem get?_empty (size : Int) (span : Span) : (empty size : Chart γ).get? span = none :=
  rfl

theorem entries_enter {ch : Chart γ} {span : Span} {c : γ} (h : ch.get? span = none) :
    (ch.enter span c h).entries = ch.entries ++ [(span, c)] :=
  List.reverse_cons

theorem commit_eq_ok {ch : Chart γ} {span : Span} {c : γ} (h : ch.get? span = none)
    (hf : ch.Fits span) : ch.commit span c = .ok (ch.enter span c h) := by
  rw [commit, dif_pos h, if_pos hf]

end Chart

end ChartParsing
