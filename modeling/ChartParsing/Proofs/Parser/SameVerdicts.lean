import ChartParsing.Proofs.Parser.SharedTables

/-!
# Parsers that give the same verdicts

Two parsers can fill different charts and still agree on a text: they recognize it or not, and
where one gives a tree the other gives a tree, while both fail in the same words and with the same
diagnostics otherwise (`Parser.SameVerdict`). The root that the charts give and the diagnostics
decide this (`Parser.sameVerdict_of_fill`).
-/

namespace ChartParsing

/-- Failures of one kind with the same reason and diagnostics; their charts can differ. -/
structure Failure.Alike (e e' : Failure) : Prop where
  kind : e.kind = e'.kind
  reason : e.reason = e'.reason
  diagnostics : e.diagnostics = e'.diagnostics

/-- The same errors, but for the chart of a failure. -/
inductive ParseError.Alike : ParseError → ParseError → Prop where
  | breach (cause : Breach) : Alike (breach cause) (breach cause)
  | failure {e e' : Failure} (h : e.Alike e') : Alike (failure e) (failure e')
  | unnamed (cause : LookupError) : Alike (unnamed cause) (unnamed cause)

theorem ParseError.Alike.refl (e : ParseError) : e.Alike e := by
  cases e with
  | breach cause => exact .breach cause
  | failure cause => exact .failure ⟨rfl, rfl, rfl⟩
  | unnamed cause => exact .unnamed cause

theorem ParseError.Alike.message_eq {e e' : ParseError} (h : e.Alike e') :
    e.message = e'.message := by
  cases h with
  | breach => rfl
  | failure h => rw [message, message, Failure.message, Failure.message, h.reason, h.diagnostics]
  | unnamed => rfl

section Charts

variable {a b : Chart (Cell Symbol)} (h : a.diagnostics = b.diagnostics)

include h

theorem Failure.alike_ofEmpty : (Failure.ofEmpty a).Alike (Failure.ofEmpty b) :=
  ⟨rfl, rfl, h⟩

theorem Failure.alike_ofChart (start : String) :
    (Failure.ofChart start a).Alike (Failure.ofChart start b) := by
  refine ⟨rfl, ?_, h⟩
  rw [ofChart, ofChart, h]

end Charts

namespace Parser

/-- Two parsers, each over its own table, recognize a text or not alike, and give trees in a
relation or fail in the same way. -/
structure SameVerdict (T : Tree Symbol → Tree Symbol → Prop) (p q : Parser)
    (names names' : NameTable) (text : String) : Prop where
  recognize : p.recognize names text = q.recognize names' text
  parse : ResultRel ParseError.Alike T (p.parse names text).result (q.parse names' text).result
  message : ∀ e e', (p.parse names text).result = .error e →
    (q.parse names' text).result = .error e' → e.message = e'.message

variable {T : Tree Symbol → Tree Symbol → Prop} {p q : Parser} {names names' : NameTable}
variable {text : String}

/-- The verdicts are the same when the answers are; the messages follow. -/
theorem sameVerdict_of_parse (hrecognize : p.recognize names text = q.recognize names' text)
    (hparse : ResultRel ParseError.Alike T (p.parse names text).result
      (q.parse names' text).result) : SameVerdict T p q names names' text := by
  refine ⟨hrecognize, hparse, fun e e' he he' => ?_⟩
  rw [he, he'] at hparse
  cases hparse with
  | error h => exact h.message_eq

/-- A text that neither parser fills, for the same reason, has the same verdict. -/
theorem sameVerdict_of_fill_eq_error {e : ParseError} (h : p.fill names text = .error e)
    (h' : q.fill names' text = .error e) : SameVerdict T p q names names' text := by
  obtain ⟨hrecognize, hparse⟩ := answers_of_fill_eq_error h
  obtain ⟨hrecognize', hparse'⟩ := answers_of_fill_eq_error h'
  refine sameVerdict_of_parse (hrecognize.trans hrecognize'.symm) ?_
  rw [hparse, hparse']
  exact .error (.refl e)

/-- Charts with the same diagnostics and with roots in a relation lead to the same verdict. -/
theorem sameVerdict_of_fill {f f' : Filling Symbol} (h : p.fill names text = .ok f)
    (h' : q.fill names' text = .ok f') {s : String}
    (hs : names.resolve p.grammar.start = .ok s) (hs' : names'.resolve q.grammar.start = .ok s)
    (hsize : f.chart.size = f'.chart.size)
    (hdiagnostics : f.chart.diagnostics = f'.chart.diagnostics)
    (hroot : Option.Rel T (f.chart.top?.bind (·.lookup p.grammar.start))
      (f'.chart.top?.bind (·.lookup q.grammar.start))) :
    SameVerdict T p q names names' text := by
  refine sameVerdict_of_parse ?_ ?_
  · have haccepts : f.chart.accepts p.grammar.start = f'.chart.accepts q.grammar.start := by
      rw [Chart.accepts_eq_isSome, Chart.accepts_eq_isSome, isSome_eq_of_rel hroot]
    rw [recognize, recognize, h, h']
    exact congrArg Except.ok haccepts
  · rw [parse_of_fill h, parse_of_fill h', conclude, conclude, hs, hs', hsize]
    split
    · exact .error (.failure (Failure.alike_ofEmpty hdiagnostics))
    · generalize f.chart.top?.bind (·.lookup p.grammar.start) = root at hroot ⊢
      generalize f'.chart.top?.bind (·.lookup q.grammar.start) = root' at hroot ⊢
      cases hroot with
      | some hroot => exact .ok hroot
      | none => exact .error (.failure (Failure.alike_ofChart hdiagnostics s))

end Parser

end ChartParsing
