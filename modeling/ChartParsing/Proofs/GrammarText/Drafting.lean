import ChartParsing.Proofs.GrammarText.Reading

/-!
# What a draft takes in

`Draft.tokens` gives the tokens that a draft stands for. A token that is taken in is kept: what
a draft stands for and the token after it are what the completed items and the next draft stand
for (`tokens_of_accept`), so tokens that come to items are the tokens of these items, each once
and in order (`flatMap_tokens_of_run`). On the way no alternative stays empty
(`isFilled_of_run`).
-/

namespace ChartParsing.GrammarText

/-- The tokens of alternatives with a bar after each. -/
def closedTokens (alternatives : List (List RightSymbol)) : List Token :=
  alternatives.flatMap fun symbols => symbols.map RightSymbol.token ++ [.bar]

theorem alternativeTokens_append_singleton (done : List (List RightSymbol))
    (symbols : List RightSymbol) : alternativeTokens (done ++ [symbols]) =
      closedTokens done ++ symbols.map RightSymbol.token := by
  induction done with
  | nil => simp [alternativeTokens, closedTokens]
  | cons first done ih =>
    have hlater : alternativeTokens (first :: (done ++ [symbols])) =
        first.map RightSymbol.token ++ .bar :: alternativeTokens (done ++ [symbols]) := by
      cases done <;> simp [alternativeTokens_cons]
    rw [List.cons_append, hlater, ih]
    simp [closedTokens]

theorem token_mem_alternativeTokens {alternatives : List (List RightSymbol)}
    {symbols : List RightSymbol} {x : RightSymbol} (hs : symbols ∈ alternatives)
    (hx : x ∈ symbols) : x.token ∈ alternativeTokens alternatives := by
  obtain ⟨done, later, rfl⟩ := List.append_of_mem hs
  cases done with
  | nil =>
    rw [List.nil_append, alternativeTokens_cons]
    exact List.mem_append_left _ (List.mem_map_of_mem hx)
  | cons first done =>
    rw [List.cons_append, alternativeTokens_cons]
    exact List.mem_append_right _ (List.mem_flatMap.2
      ⟨symbols, by simp, List.mem_cons_of_mem _ (List.mem_map_of_mem hx)⟩)

/-- Whether a production has alternatives, and each of them symbols. -/
def Item.IsFilled : Item → Prop
  | .production _ alternatives => alternatives ≠ [] ∧ ∀ symbols ∈ alternatives, symbols ≠ []
  | _ => True

/-- An item can be written if its tokens can. -/
theorem Item.IsFilled.canBeWritten {item : Item} (h : item.IsFilled)
    (hspelled : ∀ t ∈ item.tokens, t.CanBeSpelled) : item.CanBeWritten := by
  cases item with
  | start name => exact hspelled (.name name) (by simp [tokens])
  | terminals values =>
    exact fun value hv => hspelled (.terminal value) (by simp [tokens, hv])
  | nonterminals names =>
    exact fun name hn => hspelled (.name name) (by simp [tokens, hn])
  | production left alternatives =>
    refine ⟨hspelled (.leftSide left) (by simp [tokens]), h.1,
      fun symbols hs => ⟨h.2 symbols hs, fun x hx => hspelled x.token ?_⟩⟩
    simp [tokens, token_mem_alternativeTokens hs hx]

namespace Draft

/-- The tokens that a draft stands for. -/
def tokens : Draft → List Token
  | none => []
  | start => [.startKeyword]
  | terminals values => .terminalsKeyword :: values.reverse.map .terminal
  | nonterminals names => .nonterminalsKeyword :: names.reverse.map .name
  | production left => [.leftSide left]
  | opened left done => .leftSide left :: .arrow :: closedTokens done.reverse
  | alternative left done symbols =>
    .leftSide left :: .arrow ::
      (closedTokens done.reverse ++ symbols.reverse.map RightSymbol.token)

/-- Whether the alternatives of a draft have symbols, but for one that was just opened. -/
def IsFilled : Draft → Prop
  | opened _ done => ∀ symbols ∈ done, symbols ≠ []
  | alternative _ done symbols => symbols ≠ [] ∧ ∀ symbols ∈ done, symbols ≠ []
  | _ => True

variable {d d' : Draft} {t : Token} {ts : List Token} {items : List Item}

/-- A token names the start symbol, goes on with the item under way, or begins another. -/
theorem accept_cases (h : d.accept t = some (items, d')) :
    (∃ name, d = start ∧ t = .name name ∧ items = [.start name] ∧ d' = none) ∨
      (d.extend? t = some d' ∧ items = []) ∨ (d.finish? = some items ∧ begin? t = some d') := by
  unfold accept at h
  split at h
  · cases h
    exact .inl ⟨_, rfl, rfl, rfl, rfl⟩
  · split at h
    · rename_i hextend
      cases h
      exact .inr (.inl ⟨hextend, rfl⟩)
    · split at h
      · rename_i hfinish hbegin
        cases h
        exact .inr (.inr ⟨hfinish, hbegin⟩)
      · cases h

section Tokens

theorem tokens_of_finish? (h : d.finish? = some items) : d.tokens = items.flatMap Item.tokens := by
  cases d with
  | alternative left done symbols =>
    cases h
    rw [List.flatMap_singleton, Item.tokens, List.reverse_cons, alternativeTokens_append_singleton,
      tokens]
  | _ => cases h <;> simp [tokens, Item.tokens]

theorem tokens_of_begin? (h : begin? t = some d) : d.tokens = [t] := by
  cases t <;> cases h <;> rfl

theorem tokens_of_extend? (h : d.extend? t = some d') : d'.tokens = d.tokens ++ [t] := by
  cases d <;> cases t <;> cases h <;> simp [tokens, closedTokens, RightSymbol.token]

/-- A token that is taken in is kept. -/
theorem tokens_of_accept (h : d.accept t = some (items, d')) :
    d.tokens ++ [t] = items.flatMap Item.tokens ++ d'.tokens := by
  rcases accept_cases h with ⟨name, rfl, rfl, rfl, rfl⟩ | ⟨hextend, rfl⟩ | ⟨hfinish, hbegin⟩
  · rfl
  · rw [tokens_of_extend? hextend, List.flatMap_nil, List.nil_append]
  · rw [tokens_of_finish? hfinish, tokens_of_begin? hbegin]

/-- Tokens that come to items are the tokens of the items. -/
theorem flatMap_tokens_of_run (h : d.run ts = some items) :
    d.tokens ++ ts = items.flatMap Item.tokens := by
  induction ts generalizing d items with
  | nil => rw [List.append_nil, tokens_of_finish? h]
  | cons t ts ih =>
    obtain ⟨done, d', more, haccept, hrun, rfl⟩ := run_cons_eq_some_iff.1 h
    rw [List.flatMap_append, ← ih hrun, ← List.append_assoc, ← tokens_of_accept haccept,
      List.append_assoc, List.singleton_append]

end Tokens

section Filled

theorem IsFilled.of_finish? (hd : d.IsFilled) (h : d.finish? = some items) :
    ∀ item ∈ items, item.IsFilled := by
  cases d with
  | alternative left done symbols =>
    cases h
    simpa [Item.IsFilled, IsFilled, or_imp, forall_and, and_comm] using hd
  | _ => cases h <;> simp [Item.IsFilled]

theorem isFilled_of_begin? (h : begin? t = some d) : d.IsFilled := by
  cases t <;> cases h <;> trivial

theorem IsFilled.of_extend? (hd : d.IsFilled) (h : d.extend? t = some d') : d'.IsFilled := by
  cases d <;> cases t <;> cases h <;> simp_all [IsFilled]

theorem IsFilled.of_accept (hd : d.IsFilled) (h : d.accept t = some (items, d')) :
    (∀ item ∈ items, item.IsFilled) ∧ d'.IsFilled := by
  rcases accept_cases h with ⟨name, rfl, rfl, rfl, rfl⟩ | ⟨hextend, rfl⟩ | ⟨hfinish, hbegin⟩
  · exact ⟨List.forall_mem_singleton.2 trivial, trivial⟩
  · exact ⟨List.forall_mem_nil _, hd.of_extend? hextend⟩
  · exact ⟨hd.of_finish? hfinish, isFilled_of_begin? hbegin⟩

/-- Every production that tokens come to has alternatives with symbols. -/
theorem IsFilled.of_run (hd : d.IsFilled) (h : d.run ts = some items) :
    ∀ item ∈ items, item.IsFilled := by
  induction ts generalizing d items with
  | nil => exact hd.of_finish? h
  | cons t ts ih =>
    obtain ⟨done, d', more, haccept, hrun, rfl⟩ := run_cons_eq_some_iff.1 h
    obtain ⟨hdone, hd'⟩ := hd.of_accept haccept
    exact List.forall_mem_append.2 ⟨hdone, ih hd' hrun⟩

end Filled

end Draft

end ChartParsing.GrammarText
