import ChartParsing.Proofs.GrammarText.Scanning

/-!
# Reading what is laid out

`Draft.run` takes tokens in without a text. A reader of a text that lays tokens out does the
same (`itemsFrom_of_laid`): each token is the first one of the text that is left, since the
tokens that a draft can take in one after the other tell a left side from a mere name by the
arrow. So the items whose tokens a text lays out are what is read from it (`items_of_laidOut`).
-/

namespace ChartParsing.GrammarText

open ChartParsing.Text

namespace Draft

/-- The items that a draft and the tokens after it come to, if all of them can be taken in. -/
def run (d : Draft) : List Token → Option (List Item)
  | [] => d.finish?
  | t :: ts =>
    match d.accept t with
    | some (items, d') => (d'.run ts).map (items ++ ·)
    | Option.none => Option.none

theorem run_cons_eq_some_iff {d : Draft} {t : Token} {ts : List Token} {items : List Item} :
    d.run (t :: ts) = some items ↔ ∃ done d' more,
      d.accept t = some (done, d') ∧ d'.run ts = some more ∧ items = done ++ more := by
  rw [run]
  cases h : d.accept t with
  | none => simp
  | some r =>
    simp only [Option.map_eq_some_iff, Option.some.injEq]
    constructor
    · rintro ⟨more, hmore, rfl⟩
      exact ⟨r.1, r.2, more, rfl, hmore, rfl⟩
    · rintro ⟨done, d', more, rfl, hmore, rfl⟩
      exact ⟨more, hmore, rfl⟩

section Accept

variable {d d' : Draft} {t : Token} {items : List Item}

/-- A token that begins an item completes the item under way. -/
theorem accept_of_begin? (hd : d.finish? = some items) (ht : begin? t = some d') :
    d.accept t = some (items, d') := by
  cases t <;> cases ht <;> cases d <;> cases hd <;> rfl

theorem accept_of_extend? (h : d.extend? t = some d') : d.accept t = some ([], d') := by
  unfold accept
  split
  · cases h
  · rw [h]

theorem run_of_begin? (hd : d.finish? = some items) (ht : begin? t = some d') (ts : List Token) :
    d.run (t :: ts) = (d'.run ts).map (items ++ ·) := by
  rw [run, accept_of_begin? hd ht]

theorem run_of_extend? (h : d.extend? t = some d') (ts : List Token) :
    d.run (t :: ts) = d'.run ts := by
  rw [run, accept_of_extend? h]
  simp

/-- Only after a left side can an arrow come. -/
theorem accept_arrow (h : d.accept .arrow = some (items, d')) : ∃ left, d = production left := by
  cases d with
  | production left => exact ⟨left, rfl⟩
  | _ => cases h

/-- A left side begins a production. -/
theorem accept_leftSide {s : String} (h : d.accept (.leftSide s) = some (items, d')) :
    d' = production s := by
  cases d <;> cases h <;> rfl

/-- A mere name is no left side. -/
theorem accept_name {s left : String} (h : d.accept (.name s) = some (items, d')) :
    d' ≠ production left := by
  cases d <;> cases h <;> simp

end Accept

/-- In tokens that can be taken in, an arrow follows exactly the left sides. -/
theorem precedes_of_run {d : Draft} {t : Token} {ts : List Token} {items : List Item}
    (h : d.run (t :: ts) = some items) : t.Precedes ts := by
  obtain ⟨done, d', more, hd', hmore, -⟩ := run_cons_eq_some_iff.1 h
  cases t with
  | leftSide s =>
    obtain rfl := accept_leftSide hd'
    cases ts with
    | nil => cases hmore
    | cons u us =>
      obtain ⟨_, _, _, hu, _⟩ := run_cons_eq_some_iff.1 hmore
      cases u with
      | arrow => exact ⟨us, rfl⟩
      | _ => cases hu
  | name s =>
    rintro ⟨us, rfl⟩
    obtain ⟨_, _, _, hu, _⟩ := run_cons_eq_some_iff.1 hmore
    obtain ⟨left, rfl⟩ := accept_arrow hu
    exact accept_name hd' rfl
  | _ => trivial

end Draft

section Steps

variable {d d' : Draft} {last cs rest : List Char} {done more : List Item}

theorem itemsFrom_of_end (hs : skip cs = []) (hd : d.finish? = some done) :
    itemsFrom last d cs = .ok done := by
  rw [itemsFrom]
  split
  · rw [hd]
  · rename_i c ds hs'
    rw [hs] at hs'
    cases hs'

/-- One step of the reader: it passes over the gap and takes a token in. -/
theorem itemsFrom_of_next? {left : List Char} (hs : skip cs = left) (hne : left ≠ [])
    (hn : next? d left = some (done, d', rest)) :
    itemsFrom last d cs = (itemsFrom left d' rest).map (done ++ ·) := by
  rw [itemsFrom]
  split
  · rename_i hnil
    exact absurd (hs.symm.trans hnil) hne
  · rename_i c ds hcons
    obtain rfl : left = c :: ds := hs.symm.trans hcons
    split
    · rename_i hnone
      rw [hn] at hnone
      cases hnone
    · rename_i done' d'' rest' hsome
      rw [hn] at hsome
      cases hsome
      rfl

end Steps

section Texts

variable {t : Token} {ts : List Token} {gap cs : List Char} {d : Draft} {items : List Item}

theorem skip_spelling (ht : t.CanBeSpelled) :
    skip (t.spelling.toList ++ cs) = t.spelling.toList ++ cs := by
  obtain ⟨c, rest, hs, hc⟩ := ht.exists_opens
  have hb := hc.isBlank
  have hsep : isSeparator c = false := by
    rw [Bool.eq_false_iff, ne_eq]
    intro h
    rw [isBlank_of_isSeparator h] at hb
    cases hb
  simp [hs, skip, skipFrom, hc.ne_percent, hsep]

/-- A token in front of a layout is taken in. -/
theorem itemsFrom_of_token {last : List Char} {d' : Draft} {done : List Item} (hgap : IsGap gap)
    (hspelled : ∀ u ∈ t :: ts, u.CanBeSpelled) (h : Laid ts cs) (hnext : t.Precedes ts)
    (ha : d.accept t = some (done, d')) :
    itemsFrom last d (gap ++ (t.spelling.toList ++ cs)) =
      (itemsFrom (t.spelling.toList ++ cs) d' cs).map (done ++ ·) := by
  have ht := hspelled t List.mem_cons_self
  have hskip : skip (gap ++ (t.spelling.toList ++ cs)) = t.spelling.toList ++ cs := by
    rw [skip_gap hgap, skip_spelling ht]
  have hne : t.spelling.toList ++ cs ≠ [] := by
    obtain ⟨c, rest, hs, -⟩ := ht.exists_opens
    simp [hs]
  have hn := next?_of_firstToken? (firstToken?_of_laid hspelled h hnext) ha
  exact itemsFrom_of_next? hskip hne hn

theorem itemsFrom_of_gap {last : List Char} (hgap : IsGap gap) (hd : d.finish? = some items) :
    itemsFrom last d gap = .ok items := by
  have hskip : skip (gap ++ []) = [] := skip_gap hgap
  rw [List.append_nil] at hskip
  exact itemsFrom_of_end hskip hd

/-- Tokens that can be taken in are taken in from a text that lays them out. -/
theorem itemsFrom_of_laid {last : List Char} (hspelled : ∀ t ∈ ts, t.CanBeSpelled)
    (h : Laid ts cs) (hrun : d.run ts = some items) : itemsFrom last d cs = .ok items := by
  induction h generalizing d items last with
  | nil hgap => exact itemsFrom_of_gap hgap hrun
  | cons hgap hne harrow h ih =>
    obtain ⟨done, d', more, ha, hmore, rfl⟩ := Draft.run_cons_eq_some_iff.1 hrun
    rw [itemsFrom_of_token hgap hspelled h (Draft.precedes_of_run hrun) ha,
      ih (List.forall_mem_cons.1 hspelled).2 hmore]
    rfl

/-- A text lays tokens out; the gap in front of the first may be missing. -/
def LaidOut : List Token → List Char → Prop
  | [], source => IsGap source
  | t :: ts, source =>
    ∃ gap cs, IsGap gap ∧ Laid ts cs ∧ source = gap ++ (t.spelling.toList ++ cs)

/-- The items whose tokens a text lays out are read from it. -/
theorem items_of_laidOut {source : String} (hspelled : ∀ t ∈ ts, t.CanBeSpelled)
    (h : LaidOut ts source.toList) (hrun : Draft.none.run ts = some items) :
    GrammarText.items source = .ok items := by
  have hitems : itemsFrom source.toList .none source.toList = .ok items := by
    cases ts with
    | nil => exact itemsFrom_of_gap h hrun
    | cons t ts =>
      obtain ⟨gap, cs, hgap, h, hsource⟩ := h
      obtain ⟨done, d', more, ha, hmore, rfl⟩ := Draft.run_cons_eq_some_iff.1 hrun
      rw [hsource, itemsFrom_of_token hgap hspelled h (Draft.precedes_of_run hrun) ha,
        itemsFrom_of_laid (List.forall_mem_cons.1 hspelled).2 h hmore]
      rfl
  rw [GrammarText.items, hitems]
  rfl

end Texts

section Items

/-- A symbol on the right side of a production as a token. -/
def RightSymbol.token : RightSymbol → Token
  | .nonterminal name => .name name
  | .terminal value => .terminal value

/-- The tokens of alternatives, with bars between them. -/
def alternativeTokens (alternatives : List (List RightSymbol)) : List Token :=
  [Token.bar].intercalate (alternatives.map fun symbols => symbols.map RightSymbol.token)

/-- The tokens of an item. -/
def Item.tokens : Item → List Token
  | .start name => [.startKeyword, .name name]
  | .terminals values => .terminalsKeyword :: values.map .terminal
  | .nonterminals names => .nonterminalsKeyword :: names.map .name
  | .production left alternatives => .leftSide left :: .arrow :: alternativeTokens alternatives

/-- Whether an item can be written: its names are names, its terminals stand on one line, and
a production has alternatives with symbols. -/
def Item.CanBeWritten : Item → Prop
  | .start name => IsName name.toList
  | .terminals values => ∀ value ∈ values, '\n' ∉ value.toList
  | .nonterminals names => ∀ name ∈ names, IsName name.toList
  | .production left alternatives => IsName left.toList ∧ alternatives ≠ [] ∧
    ∀ symbols ∈ alternatives, symbols ≠ [] ∧ ∀ x ∈ symbols, x.token.CanBeSpelled

theorem singleton_intercalate_cons {α : Type} (sep : α) (x : List α) (xs : List (List α)) :
    [sep].intercalate (x :: xs) = x ++ xs.flatMap (sep :: ·) := by
  induction xs generalizing x with
  | nil => simp
  | cons y xs ih => simp [List.intercalate_cons_cons, ih]

theorem alternativeTokens_cons (symbols : List RightSymbol)
    (alternatives : List (List RightSymbol)) : alternativeTokens (symbols :: alternatives) =
      symbols.map RightSymbol.token ++
        alternatives.flatMap fun symbols => .bar :: symbols.map RightSymbol.token := by
  rw [alternativeTokens, List.map_cons, singleton_intercalate_cons, List.flatMap_map]

theorem canBeSpelled_alternativeTokens {alternatives : List (List RightSymbol)}
    (h : ∀ symbols ∈ alternatives, ∀ x ∈ symbols, x.token.CanBeSpelled) :
    ∀ t ∈ alternativeTokens alternatives, t.CanBeSpelled := by
  cases alternatives with
  | nil => simp [alternativeTokens]
  | cons symbols alternatives =>
    obtain ⟨hsymbols, hrest⟩ := List.forall_mem_cons.1 h
    rw [alternativeTokens_cons]
    intro t ht
    simp only [List.mem_append, List.mem_map, List.mem_flatMap, List.mem_cons] at ht
    rcases ht with ⟨x, hx, rfl⟩ | ⟨symbols', hs, rfl | ⟨x, hx, rfl⟩⟩
    · exact hsymbols x hx
    · trivial
    · exact hrest symbols' hs x hx

/-- The tokens of an item that can be written can be spelled. -/
theorem Item.CanBeWritten.spelled {item : Item} (h : item.CanBeWritten) :
    ∀ t ∈ item.tokens, t.CanBeSpelled := by
  cases item with
  | start name =>
    rw [Item.tokens, List.forall_mem_cons, List.forall_mem_singleton]
    exact ⟨trivial, h⟩
  | terminals values =>
    rw [Item.tokens, List.forall_mem_cons, List.forall_mem_map]
    exact ⟨trivial, h⟩
  | nonterminals names =>
    rw [Item.tokens, List.forall_mem_cons, List.forall_mem_map]
    exact ⟨trivial, h⟩
  | production left alternatives =>
    obtain ⟨hleft, -, hsymbols⟩ := h
    rw [Item.tokens, List.forall_mem_cons, List.forall_mem_cons]
    exact ⟨hleft, trivial, canBeSpelled_alternativeTokens fun symbols hs => (hsymbols symbols hs).2⟩

namespace Draft

variable {d : Draft} {done items : List Item}

/-- Tokens that each extend a draft by one more part are taken in one after the other; a draft
keeps the latest part at the front. -/
theorem run_parts {α : Type} {token : α → Token} {holding : List α → Draft}
    (hextend : ∀ parts x, (holding parts).extend? (token x) = some (holding (x :: parts)))
    (xs parts : List α) (ts : List Token) :
    run (holding parts) (xs.map token ++ ts) = run (holding (xs.reverse ++ parts)) ts := by
  induction xs generalizing parts with
  | nil => rfl
  | cons x xs ih =>
    rw [List.map_cons, List.cons_append, run_of_extend? (hextend parts x), ih, List.reverse_cons,
      List.append_assoc, List.singleton_append]

theorem run_terminals (values : List String) (ts : List Token) :
    run (.terminals []) (values.map .terminal ++ ts) = run (.terminals values.reverse) ts := by
  have hextend : ∀ parts v,
      (terminals parts).extend? (.terminal v) = some (terminals (v :: parts)) := fun _ _ => rfl
  rw [run_parts hextend, List.append_nil]

theorem run_nonterminals (names : List String) (ts : List Token) :
    run (.nonterminals []) (names.map .name ++ ts) = run (.nonterminals names.reverse) ts := by
  have hextend : ∀ parts n,
      (nonterminals parts).extend? (.name n) = some (nonterminals (n :: parts)) := fun _ _ => rfl
  rw [run_parts hextend, List.append_nil]

variable {left : String}

theorem run_symbols (alternatives : List (List RightSymbol)) (symbols read : List RightSymbol)
    (ts : List Token) :
    run (.alternative left alternatives read) (symbols.map RightSymbol.token ++ ts) =
      run (.alternative left alternatives (symbols.reverse ++ read)) ts := by
  refine run_parts (fun read x => ?_) symbols read ts
  cases x <;> rfl

/-- An alternative with a symbol in it is taken in symbol by symbol. -/
theorem run_alternative (alternatives : List (List RightSymbol)) {symbols : List RightSymbol}
    (h : symbols ≠ []) (ts : List Token) :
    run (.opened left alternatives) (symbols.map RightSymbol.token ++ ts) =
      run (.alternative left alternatives symbols.reverse) ts := by
  cases symbols with
  | nil => exact absurd rfl h
  | cons x symbols =>
    have hx : (opened left alternatives).extend? x.token =
        some (.alternative left alternatives [x]) := by
      cases x <;> rfl
    rw [List.map_cons, List.cons_append, run_of_extend? hx, run_symbols, List.reverse_cons]

/-- Alternatives are taken in one after the other. -/
theorem run_alternatives (left : String) {alternatives : List (List RightSymbol)}
    (hne : alternatives ≠ []) (hfilled : ∀ symbols ∈ alternatives, symbols ≠ [])
    (read : List (List RightSymbol)) :
    ∃ d, d.finish? = some [.production left (read.reverse ++ alternatives)] ∧
      ∀ ts, run (.opened left read) (alternativeTokens alternatives ++ ts) = run d ts := by
  induction alternatives generalizing read with
  | nil => exact absurd rfl hne
  | cons symbols alternatives ih =>
    obtain ⟨hsymbols, hrest⟩ := List.forall_mem_cons.1 hfilled
    cases alternatives with
    | nil =>
      refine ⟨.alternative left read symbols.reverse, by simp [finish?], fun ts => ?_⟩
      simp only [alternativeTokens, List.map_cons, List.map_nil, List.intercalate_singleton]
      exact run_alternative read hsymbols ts
    | cons symbols' alternatives =>
      obtain ⟨d, hd, hrun⟩ := ih (by simp) hrest (symbols :: read)
      refine ⟨d, by simpa using hd, fun ts => ?_⟩
      have htokens : alternativeTokens (symbols :: symbols' :: alternatives) =
          symbols.map RightSymbol.token ++
            .bar :: alternativeTokens (symbols' :: alternatives) := by
        simp [alternativeTokens_cons]
      have hbar : (alternative left read symbols.reverse).extend? .bar =
          some (.opened left (symbols :: read)) := by
        simp [extend?]
      rw [htokens, List.append_assoc, run_alternative read hsymbols, List.cons_append,
        run_of_extend? hbar, hrun]

/-- The tokens of an item complete the item under way, and then come to the item. -/
theorem run_item {item : Item} (hitem : item.CanBeWritten) (hd : d.finish? = some done) :
    ∃ (d' : Draft) (given under : List Item), d'.finish? = some under ∧
      given ++ under = done ++ [item] ∧
      ∀ ts, d.run (item.tokens ++ ts) = (d'.run ts).map (given ++ ·) := by
  cases item with
  | start name =>
    refine ⟨.none, done ++ [.start name], [], rfl, by simp, fun ts => ?_⟩
    have hname : run .start (.name name :: ts) = (run .none ts).map ([.start name] ++ ·) := rfl
    rw [Item.tokens, List.cons_append, run_of_begin? hd rfl, List.singleton_append, hname]
    simp [Function.comp_def]
  | terminals values =>
    refine ⟨.terminals values.reverse, done, _, rfl, by simp, fun ts => ?_⟩
    rw [Item.tokens, List.cons_append, run_of_begin? hd rfl, run_terminals]
  | nonterminals names =>
    refine ⟨.nonterminals names.reverse, done, _, rfl, by simp, fun ts => ?_⟩
    rw [Item.tokens, List.cons_append, run_of_begin? hd rfl, run_nonterminals]
  | production left alternatives =>
    obtain ⟨-, hne, hfilled⟩ := hitem
    have hfilled : ∀ symbols ∈ alternatives, symbols ≠ [] := fun _ hs => (hfilled _ hs).1
    obtain ⟨d', hd', hrun⟩ := run_alternatives left hne hfilled []
    refine ⟨d', done, _, hd', rfl, fun ts => ?_⟩
    rw [Item.tokens, List.cons_append, List.cons_append, run_of_begin? hd rfl,
      run_of_extend? rfl, hrun]

/-- The tokens of items come to these items. -/
theorem run_items (hitems : ∀ item ∈ items, item.CanBeWritten) (hd : d.finish? = some done) :
    d.run (items.flatMap Item.tokens) = some (done ++ items) := by
  induction items generalizing d done with
  | nil => simpa [run] using hd
  | cons item items ih =>
    obtain ⟨hitem, hitems⟩ := List.forall_mem_cons.1 hitems
    obtain ⟨d', given, under, hd', hgiven, hrun⟩ := run_item hitem hd
    rw [List.flatMap_cons, hrun, ih hitems hd', Option.map_some, ← List.append_assoc, hgiven,
      List.append_assoc, List.singleton_append]

end Draft

/-- The items that a text lays out are read from it. -/
theorem items_of_layout {items : List Item} (hitems : ∀ item ∈ items, item.CanBeWritten)
    {source : String} (h : LaidOut (items.flatMap Item.tokens) source.toList) :
    GrammarText.items source = .ok items := by
  have hspelled : ∀ t ∈ items.flatMap Item.tokens, t.CanBeSpelled := by
    intro t ht
    obtain ⟨item, hitem, ht⟩ := List.mem_flatMap.1 ht
    exact (hitems item hitem).spelled t ht
  have hrun : Draft.none.run (items.flatMap Item.tokens) = some ([] ++ items) :=
    Draft.run_items hitems rfl
  exact items_of_laidOut hspelled h hrun

end Items

end ChartParsing.GrammarText
