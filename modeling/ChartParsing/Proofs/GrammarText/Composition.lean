import ChartParsing.GrammarText.Collection
import ChartParsing.Proofs.GrammarText.Drafting
import ChartParsing.Proofs.GrammarText.Gaps
import ChartParsing.Proofs.Steps
import ChartParsing.Proofs.Text.Quoted

/-!
# A text that is read is made of its tokens

`IsTextOf` says that a text is made of tokens, with what is passed over in front of each and at
the end, and of nothing else; unlike a layout it lets tokens touch, blanks stand between a
keyword and its colon, and a comment end the text. Every text that a reader takes in is made of
the tokens that it takes in (`exists_tokens_of_itemsFrom`): what is passed over is a gap
(`exists_gap`), and each scanner takes the characters of one token off the front.
-/

namespace ChartParsing.GrammarText

open ChartParsing.Text

/-- A word with blanks and a colon after it. -/
def IsKeyword (word : String) (cs : List Char) : Prop :=
  ∃ blanks, (∀ c ∈ blanks, isBlank c = true) ∧ cs = word.toList ++ blanks ++ [':']

/-- Characters stand for a token in a text. -/
def Token.StandsAs : Token → List Char → Prop
  | .startKeyword, cs => IsKeyword "start" cs
  | .terminalsKeyword, cs => IsKeyword "terminals" cs
  | .nonterminalsKeyword, cs => IsKeyword "nonterminals" cs
  | .leftSide s, cs => cs = s.toList ∧ IsName cs
  | .name s, cs => cs = s.toList ∧ IsName cs
  | .terminal value, cs => ∃ body, cs = '"' :: body ++ ['"'] ∧ IsQuotedBody body ∧
    value = String.ofList (unescape body)
  | .arrow, cs => cs = ['-', '>']
  | .bar, cs => cs = ['|']

/-- A text is made of tokens, with a gap in front of each and at the end. -/
inductive IsTextOf : List Token → List Char → Prop where
  | nil {gap : List Char} (h : IsLastGap gap) : IsTextOf [] gap
  | cons {t : Token} {ts : List Token} {gap word cs : List Char} (hgap : IsGap gap)
    (hword : t.StandsAs word) (h : IsTextOf ts cs) : IsTextOf (t :: ts) (gap ++ (word ++ cs))

/-- Characters stand only for tokens that can be spelled. -/
theorem Token.StandsAs.canBeSpelled {t : Token} {word : List Char} (h : t.StandsAs word) :
    t.CanBeSpelled := by
  cases t with
  | leftSide s | name s =>
    obtain ⟨rfl, hname⟩ := h
    exact hname
  | terminal value =>
    obtain ⟨body, -, hbody, rfl⟩ := h
    rw [CanBeSpelled, String.toList_ofList]
    exact fun hline => hbody.newline_not_mem (unescape_subset body hline)
  | _ => trivial

theorem IsTextOf.spelled {ts : List Token} {cs : List Char} (h : IsTextOf ts cs) :
    ∀ t ∈ ts, t.CanBeSpelled := by
  induction h with
  | nil => exact List.forall_mem_nil _
  | cons _ hword _ ih => exact List.forall_mem_cons.2 ⟨hword.canBeSpelled, ih⟩

section Scanners

variable {cs rest : List Char} {t : Token}

theorem exists_keyword_of_scan {word : String} {k : Token}
    (h : keywordScanner word k cs = some (t, rest)) :
    t = k ∧ ∃ key, IsKeyword word key ∧ cs = key ++ rest := by
  obtain ⟨rest', hscan, he⟩ := Option.map_eq_some_iff.1 h
  cases he
  refine ⟨rfl, ?_⟩
  unfold scanKeyword at hscan
  split at hscan
  · rename_i hprefix
    split at hscan
    · rename_i r hcolon
      cases hscan
      obtain ⟨more, rfl⟩ := List.isPrefixOf_iff_prefix.1 hprefix
      rw [List.drop_left] at hcolon
      refine ⟨_, ⟨more.takeWhile isBlank, fun c hc => List.all_eq_true.1 List.all_takeWhile c hc,
        rfl⟩, ?_⟩
      have hmore : more = more.takeWhile isBlank ++ ':' :: rest := by
        rw [← hcolon, List.takeWhile_append_dropWhile]
      simpa using hmore
    · cases hscan
  · cases hscan

theorem eq_append_of_scanName {name : String} (h : scanName cs = some (name, rest)) :
    IsName name.toList ∧ cs = name.toList ++ rest := by
  unfold scanName at h
  split at h
  · rename_i c more
    split at h
    · rename_i hc
      cases h
      rw [String.toList_ofList]
      refine ⟨⟨c, _, rfl, hc, fun x hx => List.all_eq_true.1 List.all_takeWhile x hx⟩, ?_⟩
      rw [List.cons_append, List.takeWhile_append_dropWhile]
    · cases h
  · cases h

/-- A scanner takes the characters of a token off the front of a text. -/
theorem exists_word_of_scan {scan : Scanner} (hs : scan ∈ Token.scanners)
    (h : scan cs = some (t, rest)) : ∃ word, t.StandsAs word ∧ cs = word ++ rest := by
  simp only [Token.scanners, List.mem_cons, List.not_mem_nil, or_false] at hs
  rcases hs with rfl | rfl | rfl | rfl | rfl | rfl | rfl | rfl
  · obtain ⟨rfl, word⟩ := exists_keyword_of_scan h
    exact word
  · obtain ⟨rfl, word⟩ := exists_keyword_of_scan h
    exact word
  · obtain ⟨rfl, word⟩ := exists_keyword_of_scan h
    exact word
  · unfold leftSideScanner at h
    split at h
    · rename_i name r hscan
      split at h
      · cases h
        obtain ⟨hname, hcs⟩ := eq_append_of_scanName hscan
        exact ⟨_, ⟨rfl, hname⟩, hcs⟩
      · cases h
    · cases h
  · obtain ⟨r, hscan, he⟩ := Option.map_eq_some_iff.1 h
    cases he
    obtain ⟨hname, hcs⟩ := eq_append_of_scanName hscan
    exact ⟨_, ⟨rfl, hname⟩, hcs⟩
  · obtain ⟨r, hscan, he⟩ := Option.map_eq_some_iff.1 h
    cases he
    obtain ⟨hcs, hbody⟩ := eq_append_of_scanQuoted hscan
    exact ⟨_, ⟨r.1, rfl, hbody, rfl⟩, hcs⟩
  · unfold arrowScanner at h
    split at h
    · cases h
      exact ⟨_, rfl, rfl⟩
    · cases h
  · unfold barScanner at h
    split at h
    · cases h
      exact ⟨_, rfl, rfl⟩
    · cases h

/-- A reader takes in a token that stands at the front of the text. -/
theorem exists_word_of_next? {d d' : Draft} {items : List Item}
    (h : next? d cs = some (items, d', rest)) : ∃ t word, d.accept t = some (items, d') ∧
      t.StandsAs word ∧ cs = word ++ rest := by
  obtain ⟨scan, hs, h⟩ := List.exists_of_findSome?_eq_some h
  split at h
  · rename_i t r hscan
    obtain ⟨p, hp, he⟩ := Option.map_eq_some_iff.1 h
    cases he
    obtain ⟨word, hword, hcs⟩ := exists_word_of_scan hs hscan
    exact ⟨t, word, hp, hword, hcs⟩
  · cases h

end Scanners

/-- A reader that comes to items is done where the text ends, or takes in what comes next. -/
theorem itemsFrom_cases {last cs : List Char} {d : Draft} {items : List Item}
    (h : itemsFrom last d cs = .ok items) : (skip cs = [] ∧ d.finish? = some items) ∨
      ∃ done d' rest more, skip cs ≠ [] ∧ next? d (skip cs) = some (done, d', rest) ∧
        itemsFrom (skip cs) d' rest = .ok more ∧ items = done ++ more := by
  rw [itemsFrom] at h
  split at h
  · rename_i hskip
    split at h
    · rename_i hfinish
      cases h
      exact .inl ⟨hskip, hfinish⟩
    · cases h
  · rename_i c left hskip
    split at h
    · cases h
    · rename_i done d' rest hnext
      rw [hskip]
      cases hmore : itemsFrom (c :: left) d' rest with
      | error e =>
        rw [hmore] at h
        cases h
      | ok more =>
        rw [hmore] at h
        cases h
        exact .inr ⟨done, d', rest, more, List.cons_ne_nil _ _, hnext, hmore, rfl⟩

/-- A text that a reader takes in is made of the tokens that it takes in. -/
theorem exists_tokens_of_itemsFrom {last cs : List Char} {d : Draft} {items : List Item}
    (h : itemsFrom last d cs = .ok items) : ∃ ts, d.run ts = some items ∧ IsTextOf ts cs := by
  -- each token shortens the text, but not to its tail
  induction hn : cs.length using Nat.strongRecOn generalizing last cs d items with
  | _ n ih =>
    subst hn
    obtain ⟨gap, hcs, hgap⟩ := exists_gap cs
    rcases itemsFrom_cases h with ⟨hend, hfinish⟩ | ⟨done, d', rest, more, hne, hnext, hmore, rfl⟩
    · obtain rfl : cs = gap := by rw [hcs, hend, List.append_nil]
      exact ⟨[], hfinish, .nil (hgap.elim .gap fun h => h.2)⟩
    · have hgap : IsGap gap := hgap.resolve_right fun hlast => hne hlast.1
      obtain ⟨t, word, haccept, hword, hleft⟩ := exists_word_of_next? hnext
      have hlt : rest.length < cs.length := by
        have := length_lt_of_next? hnext
        rw [hcs, List.length_append]
        omega
      obtain ⟨ts, hrun, htext⟩ := ih _ hlt hmore rfl
      refine ⟨t :: ts, Draft.run_cons_eq_some_iff.2 ⟨_, _, _, haccept, hrun, rfl⟩, ?_⟩
      rw [hcs, hleft]
      exact .cons hgap hword htext

/-- A text that is read is made of the tokens of its items and of gaps, and all of these items
can be written. -/
theorem isTextOf_of_items {source : String} {items : List Item}
    (h : GrammarText.items source = .ok items) :
    IsTextOf (items.flatMap Item.tokens) source.toList ∧ ∀ item ∈ items, item.CanBeWritten := by
  obtain ⟨ts, hrun, htext⟩ := exists_tokens_of_itemsFrom (mapError_eq_ok_iff.1 h)
  obtain rfl : ts = items.flatMap Item.tokens := Draft.flatMap_tokens_of_run hrun
  have hnone : Draft.none.IsFilled := trivial
  refine ⟨htext, fun item hitem => (hnone.of_run hrun item hitem).canBeWritten fun t ht => ?_⟩
  exact htext.spelled t (List.mem_flatMap.2 ⟨item, hitem, ht⟩)

/-- A text from which no items are read is refused by that error alone. -/
theorem refused_of_items {source : String} {e : SyntaxError}
    (h : GrammarText.items source = .error e) : e.source = source.toList ∧
      e.position ≤ source.length ∧
      ∀ names, GrammarText.build source names = (.error (.unreadable e), names) := by
  have hbuild : GrammarText.build source = Building.ofChecked (.error (.unreadable e)) := by
    rw [GrammarText.build, h]
    rfl
  obtain ⟨left, -, rfl⟩ := mapError_eq_error_iff.1 h
  exact ⟨rfl, Nat.sub_le _ _, fun names => by rw [hbuild]; rfl⟩

/-- A text is made of the tokens of the items that are read from it, or it is refused as no
grammar text. -/
theorem items_written_or_refused (source : String) :
    (∃ items, GrammarText.items source = .ok items ∧
      IsTextOf (items.flatMap Item.tokens) source.toList ∧ ∀ item ∈ items, item.CanBeWritten) ∨
    ∃ e, GrammarText.items source = .error e ∧ e.source = source.toList ∧
      e.position ≤ source.length ∧
      ∀ names, GrammarText.build source names = (.error (.unreadable e), names) := by
  cases h : GrammarText.items source with
  | ok items =>
    obtain ⟨htext, hitems⟩ := isTextOf_of_items h
    exact .inl ⟨items, rfl, htext, hitems⟩
  | error e => exact .inr ⟨e, rfl, refused_of_items h⟩

end ChartParsing.GrammarText
