import ChartParsing.Grammar.Listing
import ChartParsing.Proofs.Chart.Renaming
import ChartParsing.Proofs.Grammar.Atomicity
import ChartParsing.Proofs.Parser.ByName

/-!
# What a table holds beside a grammar makes no difference

A grammar is built from one input over two tables, which may hold any other names and may grow
further. The two grammars are related by `NameTable.SameName`, and a character is looked up as
symbols of one name, or as symbols that no rule knows (`lookUpAlike_of_sameName`). So both
parsers fill related charts and answer alike (`Parser.answerAlike_of_related`).
-/

namespace ChartParsing

open List

/-- Two symbols are handles of one name, each in its own table. -/
def NameTable.SameName (names names' : NameTable) (x y : Symbol) : Prop :=
  ∃ s, names.IsHandle s x ∧ names'.IsHandle s y

theorem NameTable.biUnique_sameName (names names' : NameTable) :
    Relator.BiUnique (names.SameName names') :=
  biUnique_through names.biUnique_isHandle names'.biUnique_isHandle

/-- Declarations that are related to the same ones are related through them. -/
theorem Declarations.Related.through {α β γ : Type} {R : α → β → Prop} {S : α → γ → Prop}
    {d : Declarations α} {e : Declarations β} {e' : Declarations γ} (h : d.Related R e)
    (h' : d.Related S e') : e.Related (fun x y => ∃ s, R s x ∧ S s y) e' where
  start := ⟨d.start, h.start, h'.start⟩
  terminals := forall₂_comp h.terminals.flip h'.terminals fun _ s _ hx hy => ⟨s, hx, hy⟩
  nonterminals := forall₂_comp h.nonterminals.flip h'.nonterminals fun _ s _ hx hy => ⟨s, hx, hy⟩
  binary := forall₂_comp h.binary.flip h'.binary fun _ s _ hx hy =>
    ⟨⟨s.1, hx.1, hy.1⟩, ⟨s.2.1, hx.2.1, hy.2.1⟩, s.2.2, hx.2.2, hy.2.2⟩
  unit := forall₂_comp h.unit.flip h'.unit fun _ s _ hx hy =>
    ⟨⟨s.1, hx.1, hy.1⟩, s.2, hx.2, hy.2⟩

/-- A result of one kind, an answer or an error, with related contents. -/
inductive ResultRel {ε ε' α β : Type} (E : ε → ε' → Prop) (A : α → β → Prop) :
    Except ε α → Except ε' β → Prop where
  | error {e : ε} {e' : ε'} (h : E e e') : ResultRel E A (.error e) (.error e')
  | ok {a : α} {b : β} (h : A a b) : ResultRel E A (.ok a) (.ok b)

theorem ResultRel.exists_contents {ε ε' α β : Type} {E : ε → ε' → Prop} {A : α → β → Prop}
    {x : Except ε α} {y : Except ε' β} (h : ResultRel E A x y) :
    (∃ e e', x = .error e ∧ y = .error e' ∧ E e e') ∨ ∃ a b, x = .ok a ∧ y = .ok b ∧ A a b := by
  cases h with
  | error h => exact .inl ⟨_, _, rfl, rfl, h⟩
  | ok h => exact .inr ⟨_, _, rfl, rfl, h⟩

theorem ResultRel.imp {ε ε' α β : Type} {E : ε → ε' → Prop} {A B : α → β → Prop}
    {x : Except ε α} {y : Except ε' β} (h : ResultRel E A x y) (hAB : ∀ a b, A a b → B a b) :
    ResultRel E B x y := by
  cases h with
  | error h => exact .error h
  | ok h => exact .ok (hAB _ _ h)

/-- Failures of one kind with the same reason and diagnostics, and with related charts. -/
structure Failure.Related (R : Symbol → Symbol → Prop) (e e' : Failure) : Prop where
  kind : e.kind = e'.kind
  reason : e.reason = e'.reason
  diagnostics : e.diagnostics = e'.diagnostics
  chart : Option.Rel (Chart.Related R) e.chart e'.chart

/-- The same errors, but for the symbols in the chart of a failure. -/
inductive ParseError.Related (R : Symbol → Symbol → Prop) : ParseError → ParseError → Prop where
  | breach (cause : Breach) : Related R (breach cause) (breach cause)
  | failure {e e' : Failure} (h : e.Related R e') : Related R (failure e) (failure e')
  | unnamed (cause : LookupError) : Related R (unnamed cause) (unnamed cause)

section Errors

variable {R : Symbol → Symbol → Prop}

theorem ParseError.Related.message_eq {e e' : ParseError} (h : e.Related R e') :
    e.message = e'.message := by
  cases h with
  | breach => rfl
  | failure h => rw [message, message, Failure.message, Failure.message, h.reason, h.diagnostics]
  | unnamed => rfl

theorem ResultRel.message_eq {α β : Type} {A : α → β → Prop} {x : Except ParseError α}
    {y : Except ParseError β} (h : ResultRel (ParseError.Related R) A x y) (e e' : ParseError)
    (hx : x = .error e) (hy : y = .error e') : e.message = e'.message := by
  subst hx hy
  cases h with
  | error h => exact h.message_eq

theorem Failure.related_ofLength (length limit : Int) :
    (Failure.ofLength length limit).Related R (Failure.ofLength length limit) :=
  ⟨rfl, rfl, rfl, .none⟩

variable {a b : Chart (Cell Symbol)} (h : a.Related R b)

include h

theorem Failure.related_ofEmpty : (Failure.ofEmpty a).Related R (Failure.ofEmpty b) :=
  ⟨rfl, rfl, h.diagnostics, .some h⟩

theorem Failure.related_ofChart (start : String) :
    (Failure.ofChart start a).Related R (Failure.ofChart start b) := by
  refine ⟨rfl, ?_, h.diagnostics, .some h⟩
  rw [ofChart, ofChart, h.diagnostics]

end Errors

namespace Parser

variable {R : Symbol → Symbol → Prop}

/-- Two parsers, each over its own table, answer a text alike: what they fill, what they
recognize, what they parse with its messages, and what is told on the way differ at most in
related symbols. -/
structure AnswerAlike (R : Symbol → Symbol → Prop) (p q : Parser) (names names' : NameTable)
    (text : String) : Prop where
  fill : ResultRel (ParseError.Related R) (Filling.Related R) (p.fill names text)
    (q.fill names' text)
  recognize : ResultRel (ParseError.Related R) (· = ·) (p.recognize names text)
    (q.recognize names' text)
  parse : ResultRel (ParseError.Related R) (Tree.Related R) (p.parse names text).result
    (q.parse names' text).result
  message : ∀ e e', (p.parse names text).result = .error e →
    (q.parse names' text).result = .error e' → e.message = e'.message
  log : (p.parse names text).log = (q.parse names' text).log

variable {p q : Parser} {names names' : NameTable} {s : String}

section Conclusion

variable (hR : Relator.BiUnique R) (hstart : R p.grammar.start q.grammar.start)
  (hs : names.resolve p.grammar.start = .ok s) (hs' : names'.resolve q.grammar.start = .ok s)

include hR hstart hs hs'

/-- Related charts lead to the same conclusion. -/
theorem conclude_related {a b : Chart (Cell Symbol)} (h : a.Related R b) :
    ResultRel (ParseError.Related R) (Tree.Related R) (p.conclude names a).1
      (q.conclude names' b).1 ∧ (p.conclude names a).2 = (q.conclude names' b).2 := by
  rw [conclude, conclude, h.size]
  split
  · exact ⟨.error (.failure (Failure.related_ofEmpty h)), rfl⟩
  · rw [hs, hs']
    have hroot := h.bind_lookup hR hstart
    generalize a.top?.bind (·.lookup p.grammar.start) = root at hroot ⊢
    generalize b.top?.bind (·.lookup q.grammar.start) = root' at hroot ⊢
    cases hroot with
    | some hroot => exact ⟨.ok hroot, rfl⟩
    | none =>
      have hfailure := Failure.related_ofChart h s
      refine ⟨.error (.failure hfailure), ?_⟩
      show [LogEntry.failed _] = [LogEntry.failed _]
      rw [hfailure.reason]

/-- Parsers whose fillings are related answer alike. -/
theorem answerAlike_of_fill {text : String}
    (hfill : ResultRel (ParseError.Related R) (Filling.Related R) (p.fill names text)
      (q.fill names' text)) : AnswerAlike R p q names names' text := by
  rcases hfill.exists_contents with ⟨e, e', hx, hy, he⟩ | ⟨f, f', hx, hy, hf⟩
  · obtain ⟨hrecognize, hparse⟩ := answers_of_fill_eq_error hx
    obtain ⟨hrecognize', hparse'⟩ := answers_of_fill_eq_error hy
    have hresult : ResultRel (ParseError.Related R) (Tree.Related R) (p.parse names text).result
        (q.parse names' text).result := by
      rw [hparse, hparse']
      exact .error he
    refine ⟨hfill, ?_, hresult, hresult.message_eq, ?_⟩
    · rw [hrecognize, hrecognize']
      exact .error he
    · rw [parse, parse, hx, hy]
  · obtain ⟨hconclude, hlog⟩ := conclude_related hR hstart hs hs' hf.chart
    have hresult : ResultRel (ParseError.Related R) (Tree.Related R) (p.parse names text).result
        (q.parse names' text).result := by
      rw [parse_of_fill hx, parse_of_fill hy]
      exact hconclude
    refine ⟨hfill, ?_, hresult, hresult.message_eq, ?_⟩
    · rw [recognize, recognize, hx, hy]
      exact .ok (hf.chart.accepts_eq hR hstart)
    · rw [parse_of_fill hx, parse_of_fill hy, hf.log, hlog]

end Conclusion

end Parser

section Tables

variable {g h : Grammar Symbol} {names names' : NameTable}

/-- A character is looked up in two tables as symbols of one name, or as symbols that no rule of
either grammar expands to. -/
theorem lookUpAlike_of_sameName (hg : g.LeftsRelated (names.SameName names') h) :
    Grammar.LookUpAlike (names.SameName names') g h (Parser.characterSymbol names)
      (Parser.characterSymbol names') := by
  intro c
  cases hx : Parser.characterSymbol names c with
  | some x =>
    cases hy : Parser.characterSymbol names' c with
    | some y => exact .inl ⟨x, y, rfl, rfl, String.singleton c, hx, hy⟩
    | none =>
      refine .inr ⟨fun x' hx' => ?_, fun _ h => by cases h⟩
      obtain rfl := Option.some.inj hx'
      rw [List.eq_nil_iff_forall_not_mem]
      intro a ha
      obtain ⟨y, s, hs, hy'⟩ := hg.exists_right ha
      obtain rfl := names.biUnique_isHandle.1 hs hx
      exact absurd (hy.symm.trans hy') (by simp)
  | none =>
    refine .inr ⟨fun _ h => (by cases h), fun y hy => ?_⟩
    rw [List.eq_nil_iff_forall_not_mem]
    intro a ha
    obtain ⟨x, s, hx', hs⟩ := hg.exists_left ha
    obtain rfl := names'.biUnique_isHandle.1 hs hy
    exact absurd (hx.symm.trans hx') (by simp)

theorem Grammar.declaresName_iff {name : String} : g.declaresName names name = true ↔
    ∃ x ∈ g.terminals ++ g.nonterminals, names.IsHandle name x := by
  have hdeclares : ∀ x, g.declares x = true ↔ x ∈ g.terminals ++ g.nonterminals := fun x => by
    simp [declares, isTerminal, isNonterminal]
  rw [declaresName, Option.any_eq_true]
  exact exists_congr fun x => by rw [hdeclares, NameTable.IsHandle, and_comm]

/-- Related grammars declare the same names, each in its table. -/
theorem declaresName_eq_of_sameName (hg : g.Related (names.SameName names') h) (name : String) :
    g.declaresName names name = h.declaresName names' name := by
  have hsymbols := rel_append hg.terminals hg.nonterminals
  rw [Bool.eq_iff_iff, Grammar.declaresName_iff, Grammar.declaresName_iff]
  constructor
  · rintro ⟨x, hx, hname⟩
    obtain ⟨y, hy, s, hs, hs'⟩ := exists_of_mem_left hsymbols hx
    obtain rfl := names.biUnique_isHandle.1 hs hname
    exact ⟨y, hy, hs'⟩
  · rintro ⟨y, hy, hname⟩
    obtain ⟨x, hx, s, hs, hs'⟩ := exists_of_mem_right hsymbols hy
    obtain rfl := names'.biUnique_isHandle.1 hs' hname
    exact ⟨x, hx, hs⟩

end Tables

namespace Parser

/-- Parsers of grammars with related left sides, each read in its own table, answer every text
alike. -/
theorem answerAlike_of_leftsRelated {g h : Grammar Symbol} {names names' : NameTable}
    (hrelated : g.LeftsRelated (names.SameName names') h) (hg : g.IsBuiltOver names)
    (hh : h.IsBuiltOver names') {policy : Policy Symbol} (hp : policy.StaysOver)
    (hpolicy : Policy.Related (names.SameName names') policy policy) (limit : Option Int)
    (text : String) : AnswerAlike (names.SameName names') ⟨g, policy, limit⟩ ⟨h, policy, limit⟩
      names names' text := by
  obtain ⟨s, hs, hs'⟩ := hrelated.start
  have hname : names.resolve g.start = .ok s := NameTable.resolve_of_find? hs
  have hname' : names'.resolve h.start = .ok s := NameTable.resolve_of_find? hs'
  refine answerAlike_of_fill (names.biUnique_sameName names') hrelated.start hname hname' ?_
  by_cases ha : (Parser.mk g policy limit).Admits text
  · have ha' : (Parser.mk h policy limit).Admits text := ha
    obtain ⟨f, hfill, hf⟩ := exists_fill hg hp ha
    obtain ⟨f', hfill', hf'⟩ := exists_fill hh hp ha'
    rw [hfill, hfill']
    exact .ok (hrelated.filling (lookUpAlike_of_sameName hrelated) text.toList hpolicy hf hf')
  · obtain ⟨bound, rfl, hlt⟩ := exists_limit_of_not_admits ha
    rw [fill_of_limit_lt rfl hlt, fill_of_limit_lt rfl hlt]
    exact .error (.failure (Failure.related_ofLength _ _))

/-- Parsers of related grammars, each read in its own table, answer every text alike. -/
theorem answerAlike_of_related {g h : Grammar Symbol} {names names' : NameTable}
    (hrelated : g.RelatedInOrder (names.SameName names') h) (hg : g.IsBuiltOver names)
    (hh : h.IsBuiltOver names') {policy : Policy Symbol} (hp : policy.StaysOver)
    (hpolicy : Policy.Related (names.SameName names') policy policy) (limit : Option Int)
    (text : String) : AnswerAlike (names.SameName names') ⟨g, policy, limit⟩ ⟨h, policy, limit⟩
      names names' text :=
  answerAlike_of_leftsRelated hrelated.leftsRelated hg hh hp hpolicy limit text

end Parser

namespace GrammarInput

variable {input : GrammarInput} {g h : Grammar Symbol}
  {before before' after after' names names' : NameTable}

/-- One input gives related grammars over any two tables, whatever is added to these. -/
theorem relatedInOrder_of_build (hg : input.build before = (.ok g, after))
    (hh : input.build before' = (.ok h, after')) (hnames : after.GrowsTo names)
    (hnames' : after'.GrowsTo names') : g.RelatedInOrder (names.SameName names') h ∧
      g.IsBuiltOver names ∧ h.IsBuiltOver names' := by
  rw [build_eq] at hg hh
  obtain ⟨d, c, hd, hc, rfl, rfl⟩ := Building.exists_of_ofDescribed hg
  obtain ⟨d', c', hd', hc', rfl, rfl⟩ := Building.exists_of_ofDescribed hh
  obtain rfl := Except.ok.inj (hd.symm.trans hd')
  obtain rfl := Except.ok.inj (hc.symm.trans hc')
  have hread := (c.settles_intern before).2 names hnames
  have hread' := (c.settles_intern before').2 names' hnames'
  refine ⟨Grammar.relatedInOrder_ofDeclarations (names.biUnique_sameName names')
    (hread.related.through hread'.related), ?_, ?_⟩
  · exact ⟨d, before, _, Description.build_of_check hc, hnames⟩
  · exact ⟨d, before', _, Description.build_of_check hc, hnames'⟩

end GrammarInput

/-- A grammar declares the same names, and is parsed with to the same answers but for handles of
the same name, over any two tables that it was built over, whatever these held before and
whatever they have got since. -/
theorem sharing_unobservable {input : GrammarInput} {g h : Grammar Symbol}
    {before before' after after' names names' : NameTable}
    (hg : input.build before = (.ok g, after)) (hh : input.build before' = (.ok h, after'))
    (hnames : after.GrowsTo names) (hnames' : after'.GrowsTo names') :
    (∀ name, g.declaresName names name = h.declaresName names' name) ∧
    ∀ policy : Policy Symbol, policy = .rightmost ∨ policy = .leftmost → ∀ limit text,
      Parser.AnswerAlike (names.SameName names') ⟨g, policy, limit⟩ ⟨h, policy, limit⟩ names names'
        text := by
  obtain ⟨hrelated, hg, hh⟩ := GrammarInput.relatedInOrder_of_build hg hh hnames hnames'
  refine ⟨declaresName_eq_of_sameName hrelated.toRelated, ?_⟩
  rintro policy (rfl | rfl) limit text
  · exact Parser.answerAlike_of_related hrelated hg hh Policy.rightmost_isDecisive.staysOver
      (Policy.rightmost_related _) limit text
  · exact Parser.answerAlike_of_related hrelated hg hh Policy.leftmost_isDecisive.staysOver
      (Policy.leftmost_related _) limit text

/-- `Builder.ambiguous` over a table with other names, which has got one more since, has other
handles than `Grammar.letters` and gives the same answers. -/
theorem letters_answer_alike : ∃ h after,
    (GrammarInput.builder .ambiguous).build ⟨["b", "a"]⟩ = (.ok h, after) ∧
    h.start ≠ Grammar.letters.start ∧
    Parser.AnswerAlike (Grammar.letterNames.SameName ⟨after.names ++ ["x"]⟩)
      (.ofGrammar Grammar.letters) (.ofGrammar h) Grammar.letterNames ⟨after.names ++ ["x"]⟩
      "aba" := by
  have hletters : (GrammarInput.builder .ambiguous).build .empty =
      (.ok Grammar.letters, Grammar.letterNames) := rfl
  have hothers : (GrammarInput.builder .ambiguous).build ⟨["b", "a"]⟩ =
      (.ok (.ofDeclarations ⟨2, [1], [2], [(2, 2, 2)], [(2, 1)]⟩), ⟨["b", "a", "S"]⟩) := rfl
  refine ⟨_, _, hothers, by decide, ?_⟩
  exact (sharing_unobservable hletters hothers (.refl _) (List.prefix_append _ _)).2 .rightmost
    (.inl rfl) none "aba"

end ChartParsing
