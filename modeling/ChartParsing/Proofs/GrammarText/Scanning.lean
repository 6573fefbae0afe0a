import ChartParsing.Proofs.GrammarText.Layout
import ChartParsing.Proofs.Text.Quoted

/-!
# A token that is spelled is scanned

The first scanner that makes anything of a text gives the token that is spelled at its front,
if what follows is laid out: `firstToken?_of_laid`. A reader that can take this token takes it
(`next?_of_firstToken?`), since the scanners of higher precedence make nothing of the text.
-/

namespace ChartParsing.GrammarText

open ChartParsing.Text

/-- What the first scanner that makes anything of a text makes of it. -/
def firstToken? (cs : List Char) : Option (Token × List Char) :=
  Token.scanners.findSome? fun scan => scan cs

/-- A reader takes the first token if it can. -/
theorem next?_of_firstToken? {d d' : Draft} {cs rest : List Char} {t : Token} {items : List Item}
    (h : firstToken? cs = some (t, rest)) (ha : d.accept t = some (items, d')) :
    next? d cs = some (items, d', rest) := by
  unfold firstToken? at h
  unfold next?
  generalize Token.scanners = scanners at h ⊢
  induction scanners with
  | nil => cases h
  | cons scan scanners ih =>
    rw [List.findSome?_cons] at h ⊢
    cases hs : scan cs with
    | none =>
      rw [hs] at h
      exact ih h
    | some r =>
      rw [hs] at h
      cases h
      simp [ha]

section Names

variable {cs rest word : List Char}

/-- A name is scanned up to the first character that cannot be in it. -/
theorem scanName_append (hname : IsName cs)
    (hrest : ∀ c r, rest = c :: r → isNamePart c = false) :
    scanName (cs ++ rest) = some (String.ofList cs, rest) := by
  obtain ⟨c, parts, rfl, hc, hparts⟩ := hname
  have htake : (parts ++ rest).takeWhile isNamePart = parts := by
    rw [List.takeWhile_append_of_pos hparts]
    cases rest with
    | nil => simp
    | cons x r => rw [List.takeWhile_cons_of_neg (by simp [hrest x r rfl]), List.append_nil]
  have hdrop : (parts ++ rest).dropWhile isNamePart = rest := by
    rw [List.dropWhile_append_of_pos hparts]
    cases rest with
    | nil => rfl
    | cons x r => rw [List.dropWhile_cons_of_neg (by simp [hrest x r rfl])]
  rw [List.cons_append, scanName, if_pos hc, htake, hdrop]

/-- A text that a name begins, with no colon after the name, begins with no keyword. -/
theorem scanKeyword_eq_none (hword : ∀ c ∈ word, isNamePart c = true)
    (hname : ∀ c ∈ cs, isNamePart c = true)
    (hrest : ∀ c r, rest = c :: r → isNamePart c = false)
    (hcolon : ∀ r, rest.dropWhile isBlank ≠ ':' :: r) :
    scanKeyword word (cs ++ rest) = none := by
  have hnone : ∀ (ds : List Char), (∀ c ∈ ds, isNamePart c = true) →
      ∀ r, (ds ++ rest).dropWhile isBlank ≠ ':' :: r := by
    intro ds hds r he
    cases ds with
    | nil => exact hcolon r he
    | cons d ds =>
      have hd := hds d List.mem_cons_self
      rw [List.cons_append, List.dropWhile_cons_of_neg
        (by simp [isBlank_eq_false_of_isNamePart hd])] at he
      exact ne_of_isNamePart hd (by decide +kernel) (List.cons.inj he).1
  unfold scanKeyword
  split
  · rename_i hprefix
    -- the word ends within the name, as what follows the name goes on with no name
    obtain ⟨more, hmore⟩ := List.isPrefixOf_iff_prefix.1 hprefix
    have hdrop : (cs ++ rest).drop word.length = more := by rw [← hmore, List.drop_left]
    rw [hdrop]
    have hsplit : ∃ ds, (∀ c ∈ ds, isNamePart c = true) ∧ more = ds ++ rest := by
      rcases List.append_eq_append_iff.1 hmore with ⟨ds, hcs, hmore⟩ | ⟨ds, hw, hrest'⟩
      · exact ⟨ds, fun c hc => hname c (hcs ▸ List.mem_append_right word hc), hmore⟩
      · cases ds with
        | nil => exact ⟨[], by simp, hrest'.symm⟩
        | cons d ds =>
          have hd := hword d (hw ▸ List.mem_append_right cs List.mem_cons_self)
          rw [hrest d _ hrest'] at hd
          cases hd
    obtain ⟨ds, hds, rfl⟩ := hsplit
    split
    · rename_i r he
      exact absurd he (hnone ds hds r)
    · rfl
  · rfl

end Names

/-- Whether the tokens that follow a token let it be read as what it is: an arrow follows the
left side of a rule, and none follows a mere name. -/
def Token.Precedes : Token → List Token → Prop
  | .leftSide _, ts => ∃ us, ts = .arrow :: us
  | .name _, ts => ¬∃ us, ts = .arrow :: us
  | _, _ => True

theorem scanName_eq_none {c : Char} (h : isNameStart c = false) (cs : List Char) :
    scanName (c :: cs) = none := by
  rw [scanName, h]
  rfl

theorem keywordScanner_eq_none {word : String} {w c : Char} {rest : List Char}
    (hword : word.toList = w :: rest) (hne : w ≠ c) (k : Token) (cs : List Char) :
    keywordScanner word k (c :: cs) = none := by
  rw [keywordScanner, scanKeyword, hword, if_neg (by simp [hne])]
  rfl

/-- The first token of a text that begins with neither a keyword nor a name. -/
theorem firstToken?_of_sign {c : Char} (hs : 's' ≠ c) (ht : 't' ≠ c) (hn : 'n' ≠ c)
    (hc : isNameStart c = false) (cs : List Char) : firstToken? (c :: cs) =
      [terminalScanner, arrowScanner, barScanner].findSome? fun scan => scan (c :: cs) := by
  have hstart := keywordScanner_eq_none (show "start".toList = _ from rfl) hs
  have hterminals := keywordScanner_eq_none (show "terminals".toList = _ from rfl) ht
  have hnonterminals := keywordScanner_eq_none (show "nonterminals".toList = _ from rfl) hn
  simp only [firstToken?, Token.scanners, List.findSome?_cons, hstart, hterminals, hnonterminals,
    leftSideScanner, nameScanner, scanName_eq_none hc, Option.map_none]

/-- The first token of a text that a name begins is that name, for want of a colon after it. -/
theorem firstToken?_of_name {s : String} {cs : List Char} (hname : IsName s.toList)
    (hrest : ∀ c r, cs = c :: r → isNamePart c = false)
    (hcolon : ∀ r, cs.dropWhile isBlank ≠ ':' :: r) : firstToken? (s.toList ++ cs) =
      some (if startsWithArrow cs then .leftSide s else .name s, cs) := by
  have hkeyword : ∀ (word : String) (k : Token), word.toList.all isNamePart = true →
      keywordScanner word k (s.toList ++ cs) = none := by
    intro word k hword
    have hword := List.all_eq_true.1 hword
    rw [keywordScanner, scanKeyword_eq_none hword hname.isNamePart hrest hcolon]
    rfl
  have hstart := hkeyword "start" .startKeyword (by decide +kernel)
  have hterminals := hkeyword "terminals" .terminalsKeyword (by decide +kernel)
  have hnonterminals := hkeyword "nonterminals" .nonterminalsKeyword (by decide +kernel)
  simp only [firstToken?, Token.scanners, List.findSome?_cons, hstart, hterminals, hnonterminals,
    leftSideScanner, nameScanner, scanName_append hname hrest, String.ofList_toList,
    Option.map_some]
  cases startsWithArrow cs <;> rfl

/-- A token that is spelled in front of a layout is the first token. -/
theorem firstToken?_of_laid {t : Token} {ts : List Token} {cs : List Char}
    (hspelled : ∀ u ∈ t :: ts, u.CanBeSpelled) (h : Laid ts cs) (hnext : t.Precedes ts) :
    firstToken? (t.spelling.toList ++ cs) = some (t, cs) := by
  obtain ⟨ht, hts⟩ := List.forall_mem_cons.1 hspelled
  have hname : ∀ s : String, IsName s.toList → firstToken? (s.toList ++ cs) =
      some (if startsWithArrow cs then .leftSide s else .name s, cs) := fun s hs =>
    firstToken?_of_name hs h.isNamePart_eq_false (h.dropWhile_ne_colon hts)
  have harrow := h.startsWithArrow_iff hts
  cases t with
  | startKeyword | terminalsKeyword | nonterminalsKeyword => rfl
  | leftSide s => rw [Token.spelling, hname s ht, if_pos (harrow.2 hnext)]
  | name s =>
    have hno : ¬startsWithArrow cs = true := by
      rw [harrow]
      exact hnext
    rw [Token.spelling, hname s ht, if_neg hno]
  | terminal v =>
    have hscan := scanQuoted_quoteChars ht cs
    rw [Token.spelling, quote, String.toList_ofList]
    rw [quoteChars, List.cons_append, List.cons_append] at hscan ⊢
    rw [firstToken?_of_sign (by decide) (by decide) (by decide) (by decide +kernel),
      List.findSome?_cons, terminalScanner, hscan, Option.map_some, unescape_escapeQuoted,
      String.ofList_toList]
  | arrow =>
    exact firstToken?_of_sign (by decide) (by decide) (by decide) (by decide +kernel) _
  | bar =>
    exact firstToken?_of_sign (by decide) (by decide) (by decide) (by decide +kernel) _

end ChartParsing.GrammarText
