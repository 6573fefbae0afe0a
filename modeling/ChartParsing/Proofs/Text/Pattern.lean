import ChartParsing.GrammarText.Token
import ChartParsing.Proofs.Text.Quoted
import ChartParsing.Text.Pattern
import Mathlib.Data.List.Basic

/-!
# The scanner of quoted terminals matches their pattern

The pattern finds the closing quote by trying ever longer bodies and counting backslashes
backwards, the scanner by reading escapes forwards. They agree on every text
(`match?_quotedPattern`). For the induction the pattern is tried in two ways at once: as pairs of
backslashes before a closing quote, and as the rest of a body, which may have the first half of a
pair behind it already.
-/

namespace ChartParsing.Text

namespace Pattern

variable {behind rest cs : List Char} {c : Char}

@[simp] theorem ends_one_nil (allowed : Char → Bool) :
    (one allowed).ends ⟨behind, []⟩ = [] := by
  rw [ends]

@[simp] theorem ends_one_cons (allowed : Char → Bool) : (one allowed).ends ⟨behind, c :: rest⟩ =
    if allowed c then [⟨c :: behind, rest⟩] else [] := by
  rw [ends]

/-- What follows a lazy repetition is tried at once, and then after one more turn. -/
theorem ends_lazily_both {p q : Pattern} {place : Place}
    (h : ∀ next ∈ p.ends place, next.ahead.length < place.ahead.length) :
    (both (lazily p) q).ends place =
      q.ends place ++ (p.ends place).flatMap (both (lazily p) q).ends := by
  rw [ends, ends, lazyEnds, List.flatMap_cons, List.flatMap_assoc]
  congr 1
  refine List.flatMap_congr fun next hnext => ?_
  rw [dif_pos (h next hnext)]
  rfl

/-- A character leaves a shorter text. -/
theorem length_lt_of_mem_ends_one {allowed : Char → Bool} {place next : Place}
    (h : next ∈ (one allowed).ends place) : next.ahead.length < place.ahead.length := by
  obtain ⟨behind, _ | ⟨c, rest⟩⟩ := place
  · rw [ends_one_nil] at h
    cases h
  · rw [ends_one_cons] at h
    split at h
    · cases List.mem_singleton.1 h
      exact Nat.lt_succ_self _
    · cases h

/-- Pairs of backslashes before a quote: the quote is there, or a pair and then the rest. -/
theorem ends_pairsAndQuote (place : Place) : pairsAndQuote.ends place =
    (only '"').ends place ++
      ((both (only '\\') (only '\\')).ends place).flatMap pairsAndQuote.ends := by
  apply ends_lazily_both
  intro next hnext
  obtain ⟨half, hhalf, hnext⟩ := List.mem_flatMap.1 hnext
  exact Nat.lt_trans (length_lt_of_mem_ends_one hnext) (length_lt_of_mem_ends_one hhalf)

theorem ends_pairsAndQuote_quote :
    pairsAndQuote.ends ⟨behind, '"' :: rest⟩ = [⟨'"' :: behind, rest⟩] := by
  rw [ends_pairsAndQuote]
  simp [only, ends]

theorem ends_pairsAndQuote_pair : pairsAndQuote.ends ⟨behind, '\\' :: '\\' :: rest⟩ =
    pairsAndQuote.ends ⟨'\\' :: '\\' :: behind, rest⟩ := by
  rw [ends_pairsAndQuote]
  simp [only, ends]

theorem ends_pairsAndQuote_eq_nil (hquote : ∀ rest, cs ≠ '"' :: rest)
    (hpair : ∀ rest, cs ≠ '\\' :: '\\' :: rest) : pairsAndQuote.ends ⟨behind, cs⟩ = [] := by
  rw [ends_pairsAndQuote]
  rcases cs with _ | ⟨c, _ | ⟨d, rest⟩⟩
  · simp [only, ends]
  · have hc : c ≠ '"' := fun e => hquote [] (by rw [e])
    simp [only, ends, hc]
  · have hc : c ≠ '"' := fun e => hquote (d :: rest) (by rw [e])
    by_cases hb : c = '\\'
    · have hd : d ≠ '\\' := fun e => hpair rest (by rw [hb, e])
      simp [only, ends, hb, hd]
    · simp [only, ends, hc, hb]

/-- The rest of a body: it ends here, unless a backslash stands before, or takes one more
character of the line. -/
theorem ends_bodyAndQuote (place : Place) : bodyAndQuote.ends place =
    (both (notBehind '\\') pairsAndQuote).ends place ++
      ((one fun c => decide (c ≠ '\n')).ends place).flatMap bodyAndQuote.ends :=
  ends_lazily_both fun _ hnext => length_lt_of_mem_ends_one hnext

theorem ends_notBehind_both (h : behind.head? ≠ some c) (p : Pattern) :
    (both (notBehind c) p).ends ⟨behind, cs⟩ = p.ends ⟨behind, cs⟩ := by
  simp [ends, h]

theorem ends_notBehind_both_eq_nil (h : behind.head? = some c) (p : Pattern) :
    (both (notBehind c) p).ends ⟨behind, cs⟩ = [] := by
  simp [ends, h]

/-- The two ways in which the pattern is tried behind a part of a body, the closing quote first. -/
def endsBothWays (behind cs : List Char) : List Place :=
  pairsAndQuote.ends ⟨behind, cs⟩ ++ bodyAndQuote.ends ⟨behind, cs⟩

/-- A body that may end here tries the pairs of backslashes itself. -/
theorem head?_endsBothWays (h : behind.head? ≠ some '\\') :
    (endsBothWays behind cs).head? = (bodyAndQuote.ends ⟨behind, cs⟩).head? := by
  rw [endsBothWays, ends_bodyAndQuote, ends_notBehind_both h, List.head?_append, List.head?_append,
    ← Option.or_assoc, Option.or_self]

/-- Where neither a closing quote nor a pair of backslashes stands, the body goes on. -/
theorem head?_endsBothWays_cons (hline : c ≠ '\n') :
    (endsBothWays behind (c :: rest)).head? =
      (pairsAndQuote.ends ⟨behind, c :: rest⟩ ++ bodyAndQuote.ends ⟨c :: behind, rest⟩).head? := by
  have hmore : ((one fun c => decide (c ≠ '\n')).ends ⟨behind, c :: rest⟩).flatMap
      bodyAndQuote.ends = bodyAndQuote.ends ⟨c :: behind, rest⟩ := by
    simp [hline]
  rw [endsBothWays, ends_bodyAndQuote, hmore]
  by_cases h : behind.head? = some '\\'
  · rw [ends_notBehind_both_eq_nil h, List.nil_append]
  · rw [ends_notBehind_both h]
    simp only [List.head?_append, ← Option.or_assoc, Option.or_self]

/-- Behind a backslash a body cannot end. -/
theorem ends_bodyAndQuote_of_backslash (hline : c ≠ '\n') :
    bodyAndQuote.ends ⟨'\\' :: behind, c :: rest⟩ =
      bodyAndQuote.ends ⟨c :: '\\' :: behind, rest⟩ := by
  rw [ends_bodyAndQuote, ends_notBehind_both_eq_nil rfl]
  simp [hline]

/-- No closing quote is found where the line ends. -/
theorem ends_pairsAndQuote_of_lineEnd (h : ∀ c ∈ cs.head?, c = '\n') :
    pairsAndQuote.ends ⟨behind, cs⟩ = [] := by
  apply ends_pairsAndQuote_eq_nil
  · rintro rest rfl
    exact absurd (h '"' rfl) (by decide)
  · rintro rest rfl
    exact absurd (h '\\' rfl) (by decide)

theorem ends_bodyAndQuote_of_lineEnd (h : ∀ c ∈ cs.head?, c = '\n') :
    bodyAndQuote.ends ⟨behind, cs⟩ = [] := by
  have hmore : (one fun c => decide (c ≠ '\n')).ends ⟨behind, cs⟩ = [] := by
    cases cs with
    | nil => exact ends_one_nil _
    | cons c rest =>
      rw [ends_one_cons, if_neg]
      simp [h c rfl]
  rw [ends_bodyAndQuote, hmore, List.flatMap_nil, List.append_nil]
  by_cases hb : behind.head? = some '\\'
  · exact ends_notBehind_both_eq_nil hb _
  · rw [ends_notBehind_both hb, ends_pairsAndQuote_of_lineEnd h]

theorem endsBothWays_of_lineEnd (h : ∀ c ∈ cs.head?, c = '\n') : endsBothWays behind cs = [] := by
  rw [endsBothWays, ends_pairsAndQuote_of_lineEnd h, ends_bodyAndQuote_of_lineEnd h,
    List.append_nil]

/-- The first end of the pattern is the closing quote that the scanner finds. -/
theorem head?_endsBothWays_eq (behind cs : List Char) : (endsBothWays behind cs).head? =
    (scanBody false cs).map fun r => ⟨'"' :: (r.1.reverse ++ behind), r.2⟩ := by
  -- the recursion of `unescape` takes an escape at a time
  fun_induction unescape cs generalizing behind with
  | case1 rest ih =>
    rw [head?_endsBothWays_cons (by decide), ends_pairsAndQuote_eq_nil (by simp) (by simp),
      ends_bodyAndQuote_of_lineEnd (by simp)]
    rfl
  | case2 c rest hc ih =>
    have hscan : (scanBody false ('\\' :: c :: rest)).map
        (fun r => (⟨'"' :: (r.1.reverse ++ behind), r.2⟩ : Place)) =
          (endsBothWays (c :: '\\' :: behind) rest).head? := by
      rw [ih, scanBody_escaped hc, Option.map_map]
      simp [Function.comp_def]
    rw [hscan, head?_endsBothWays_cons (by decide), ends_bodyAndQuote_of_backslash hc]
    by_cases hb : c = '\\'
    · rw [hb, ends_pairsAndQuote_pair]
      rfl
    · rw [ends_pairsAndQuote_eq_nil (by simp) (by simpa using hb), List.nil_append,
        head?_endsBothWays (by simpa using hb)]
  | case3 c rest hc ih =>
    by_cases hline : c = '\n'
    · rw [endsBothWays_of_lineEnd (by simpa using hline), hline]
      rfl
    by_cases hquote : c = '"'
    · rw [endsBothWays, hquote, ends_pairsAndQuote_quote]
      rfl
    by_cases hb : c = '\\'
    · obtain rfl : rest = [] := by
        cases rest with
        | nil => rfl
        | cons d rest => exact (hc d rest hb rfl).elim
      rw [head?_endsBothWays_cons hline, ends_bodyAndQuote_of_lineEnd (by simp), hb,
        ends_pairsAndQuote_eq_nil (by simp) (by simp)]
      rfl
    · rw [head?_endsBothWays_cons hline, ends_pairsAndQuote_eq_nil (by simpa using hquote)
        (by simp [hb]), List.nil_append, ← head?_endsBothWays (by simpa using hb), ih,
        scanBody_plain hquote hb hline, Option.map_map]
      simp [Function.comp_def]
  | case4 =>
    rw [endsBothWays_of_lineEnd (by simp)]
    rfl

/-- The pattern of quoted terminals matches what the scanner takes off the front of a text. -/
theorem match?_quotedPattern (behind cs : List Char) : quotedPattern.match? behind cs =
    (scanQuoted cs).map fun r => ('"' :: r.1 ++ ['"'], r.2) := by
  unfold scanQuoted
  split
  · rename_i rest
    have hends : (quotedPattern.ends ⟨behind, '"' :: rest⟩).head? =
        (endsBothWays ('"' :: behind) rest).head? := by
      rw [head?_endsBothWays (by simp)]
      simp [quotedPattern, only, ends]
    rw [match?, hends, head?_endsBothWays_eq, Option.map_map]
    refine Option.map_congr fun r hr => ?_
    have hcs : '"' :: rest = ('"' :: r.1 ++ ['"']) ++ r.2 := by
      rw [eq_append_of_scanBody hr]
      simp
    rw [Function.comp_apply, hcs, List.length_append, Nat.add_sub_cancel, List.take_left]
  · rename_i hne
    have hends : quotedPattern.ends ⟨behind, cs⟩ = [] := by
      cases cs with
      | nil => simp [quotedPattern, only, ends]
      | cons c rest =>
        have hc : c ≠ '"' := fun e => hne rest (by rw [e])
        simp [quotedPattern, only, ends, hc]
    rw [match?, hends]
    rfl

end Pattern

namespace QuotedItem

/-- What has the form of a body is made of items. -/
theorem exists_items {body : List Char} (h : IsQuotedBody body) :
    ∃ items : List QuotedItem, body = items.flatMap written := by
  induction h with
  | nil => exact ⟨[], rfl⟩
  | plain hquote hbackslash hline _ ih =>
    obtain ⟨items, rfl⟩ := ih
    exact ⟨.plain _ hquote hbackslash hline :: items, rfl⟩
  | escaped hline _ ih =>
    obtain ⟨items, rfl⟩ := ih
    exact ⟨.escaped _ hline :: items, rfl⟩

/-- A body is scanned item by item, up to the quote behind it. -/
theorem scanBody_written (items : List QuotedItem) (rest : List Char) :
    scanBody false (items.flatMap written ++ '"' :: rest) = some (items.flatMap written, rest) := by
  induction items with
  | nil => rfl
  | cons item items ih =>
    cases item with
    | plain c hquote hbackslash hline =>
      show scanBody false (c :: (items.flatMap written ++ '"' :: rest)) = _
      rw [scanBody_plain hquote hbackslash hline, ih]
      rfl
    | escaped c hline =>
      show scanBody false ('\\' :: c :: (items.flatMap written ++ '"' :: rest)) = _
      rw [scanBody_escaped hline, ih]
      rfl

/-- Every backslash of a body escapes the character behind it. -/
theorem unescape_written (items : List QuotedItem) :
    unescape (items.flatMap written) = items.map meaning := by
  induction items with
  | nil => rfl
  | cons item items ih =>
    cases item with
    | plain c hquote hbackslash hline =>
      show unescape (c :: items.flatMap written) = _
      rw [unescape, ih]
      · rfl
      · exact fun _ _ hc _ => hbackslash hc
    | escaped c hline =>
      show unescape ('\\' :: c :: items.flatMap written) = _
      rw [unescape, if_neg hline, ih]
      rfl

theorem scanQuoted_literalOf (items : List QuotedItem) (rest : List Char) :
    scanQuoted (literalOf items ++ rest) = some (items.flatMap written, rest) := by
  rw [literalOf, List.append_assoc, List.cons_append]
  exact scanBody_written items rest

end QuotedItem

/-- What stands between the quotes of a literal is unescaped. -/
theorem unquote_quotes (body : List Char) :
    unquote (String.ofList ('"' :: body ++ ['"'])) = String.ofList (unescape body) := by
  rw [unquote, String.toList_ofList, List.cons_append, List.drop_one, List.tail_cons,
    List.dropLast_concat]

theorem unquote_quote (s : String) : unquote (quote s) = s := by
  rw [quote, quoteChars, unquote_quotes, unescape_escapeQuoted, String.ofList_toList]

open GrammarText

/-- The token of a quoted terminal is the text that the pattern matches, unquoted. -/
theorem terminalScanner_eq (behind cs : List Char) : terminalScanner cs =
    (quotedPattern.match? behind cs).map fun r =>
      (.terminal (unquote (String.ofList r.1)), r.2) := by
  rw [Pattern.match?_quotedPattern, Option.map_map, terminalScanner]
  refine Option.map_congr fun r _ => ?_
  rw [Function.comp_apply, unquote_quotes]

/-- Quoting, the pattern of quoted terminals and unquoting agree. What is quoted is unquoted
again, and on one line the pattern matches exactly the quoted terminal. Wherever it is tried, the
pattern matches a literal that is made of items and nothing else, and what is then unquoted are the
characters that the items stand for. -/
theorem quoted_terminals_agree :
    (∀ s : String, unquote (quote s) = s) ∧
    (∀ behind cs, terminalScanner cs = (quotedPattern.match? behind cs).map fun r =>
      (.terminal (unquote (String.ofList r.1)), r.2)) ∧
    (∀ s : String, '\n' ∉ s.toList → ∀ behind rest,
      quotedPattern.match? behind ((quote s).toList ++ rest) = some ((quote s).toList, rest)) ∧
    (∀ behind cs, (quotedPattern.match? behind cs).isSome ↔
      ∃ items rest, cs = literalOf items ++ rest) ∧
    ∀ items behind rest,
      quotedPattern.match? behind (literalOf items ++ rest) = some (literalOf items, rest) ∧
      unquote (String.ofList (literalOf items)) =
        String.ofList (items.map QuotedItem.meaning) := by
  have hmatch : ∀ items behind rest,
      quotedPattern.match? behind (literalOf items ++ rest) = some (literalOf items, rest) := by
    intro items behind rest
    rw [Pattern.match?_quotedPattern, QuotedItem.scanQuoted_literalOf]
    rfl
  refine ⟨unquote_quote, terminalScanner_eq, fun s hs behind rest => ?_,
    fun behind cs => ⟨fun h => ?_, ?_⟩, fun items behind rest => ⟨hmatch items behind rest, ?_⟩⟩
  · rw [quote, String.toList_ofList, Pattern.match?_quotedPattern, scanQuoted_quoteChars hs]
    rfl
  · rw [Pattern.match?_quotedPattern, Option.isSome_map] at h
    obtain ⟨r, hr⟩ := Option.isSome_iff_exists.1 h
    obtain ⟨hcs, hbody⟩ := eq_append_of_scanQuoted hr
    obtain ⟨items, hitems⟩ := QuotedItem.exists_items hbody
    exact ⟨items, r.2, by rw [hcs, hitems, literalOf]⟩
  · rintro ⟨items, rest, rfl⟩
    rw [hmatch]
    rfl
  · rw [literalOf, unquote_quotes, QuotedItem.unescape_written]

/-- A backslash and a quote, with a letter behind the literal: the pattern stops at its end. -/
theorem backslash_and_quote_agree : '\n' ∉ "\\\"".toList ∧ ∀ behind,
    quotedPattern.match? behind ((quote "\\\"").toList ++ ['a', '"']) =
      some ((quote "\\\"").toList, ['a', '"']) := by
  have hline : '\n' ∉ "\\\"".toList := by decide
  exact ⟨hline, fun behind => quoted_terminals_agree.2.2.1 _ hline behind _⟩

end ChartParsing.Text
