import ChartParsing.Proofs.Chart.Content

/-!
# A filled chart holds the trees of the recurrence

Over a grammar with sound indexes, and with a policy that stays over the span of its
candidates, every checked operation of the filling succeeds, and the filling holds exactly
what the spans of the text add to it (`fill_eq_ok`): each cell holds the trees of the
recurrence over its span, which is read back by `get?_of_isAfter`. One step enters a character
(`exists_enter`) or decides a longer span (`exists_combine`), each from the cells of the spans
before it.
-/

namespace ChartParsing

variable {σ : Type} [DecidableEq σ]

namespace Grammar

variable {g : Grammar σ} {lookup : Char → Option σ} {policy : Policy σ} {text : List Char}

/-! ### Cells of characters -/

theorem terminalParents_eq (hg : g.IsIndexed) (t : σ) :
    (if g.isTerminal t then g.unitParents t else []) = g.unitLefts t := by
  by_cases ht : g.isTerminal t = true
  · rw [if_pos ht, hg.unitParents_eq]
  · rw [if_neg ht]
    refine (List.eq_nil_iff_forall_not_mem.2 fun a ha => ?_).symm
    exact ht (hg.isTerminal_of_mem a t (mem_unitLefts.1 ha))

theorem characterCell_eq [ToString σ] (hg : g.IsIndexed) (policy : Policy σ) {i : Nat} {c : Char}
    (hc : text[i]? = some c) :
    g.characterCell lookup i c = .ok (g.cellOver? lookup policy text ⟨i, 1⟩) := by
  have htrees : g.treesOver lookup policy text ⟨i, 1⟩ = g.characterTrees lookup text i :=
    treesAt_one
  unfold characterCell cellOver?
  rw [htrees, characterTrees, hc, Option.bind_some]
  cases hs : lookup c with
  | none => rfl
  | some t =>
    simp only [terminalParents_eq hg t]
    by_cases hn : g.unitLefts t = []
    · simp [hn]
    · have hnodes : (g.unitLefts t).mapM (unitNode t ⟨(i : Int), 1⟩) =
          .ok ((g.unitLefts t).map fun a => .unary a ⟨t, i⟩) :=
        mapM_eq_ok fun a _ => rfl
      have hcell : (Cell.emptyOver ⟨i, 1⟩ : Cell σ).addAll
          ((g.unitLefts t).map fun a => .unary a ⟨t, i⟩) =
            .ok ⟨⟨i, 1⟩, (g.unitLefts t).map fun a => .unary a ⟨t, i⟩⟩ := by
        refine Cell.addAll_eq_ok fun u hu => ?_
        obtain ⟨a, -, rfl⟩ := List.mem_map.1 hu
        rfl
      simp [hn, hnodes, hcell, bind, Except.bind, pure, Except.pure]

/-! ### Candidates of longer spans -/

/-- Passing over the pairs that no rule joins loses no tree. -/
theorem map_joins_eq (hg : g.IsIndexed) (left right : Cell σ) :
    (g.joins left right).map (fun j => Tree.branch j.1 j.2.1 j.2.2) =
      g.joinedTrees left.nodes right.nodes := by
  have hnone : ∀ b c, c ∉ g.successorsAfter b → g.binaryLefts b c = [] := by
    intro b c hc
    refine List.eq_nil_iff_forall_not_mem.2 fun a ha => hc ?_
    exact (hg.mem_successorsAfter_iff b c).2 ⟨a, mem_binaryLefts.1 ha⟩
  unfold joins joinedTrees
  rw [List.map_flatMap]
  refine List.flatMap_congr fun x _ => ?_
  by_cases hx : (g.successorsAfter x.kind).isEmpty = true
  · rw [if_pos hx, List.map_nil]
    refine (List.flatMap_eq_nil_iff.2 fun y _ => ?_).symm
    rw [hnone x.kind y.kind (by simp [List.isEmpty_iff.1 hx]), List.map_nil]
  · rw [if_neg hx, List.map_flatMap]
    refine List.flatMap_congr fun y _ => ?_
    by_cases hy : y.kind ∈ g.successorsAfter x.kind
    · rw [if_pos hy, List.map_map, hg.binaryParents_eq]
      rfl
    · rw [if_neg hy, hnone x.kind y.kind hy]
      rfl

theorem mem_joins {left right : Cell σ} {j : σ × Tree σ × Tree σ} (h : j ∈ g.joins left right) :
    j.2.1 ∈ left.nodes ∧ j.2.2 ∈ right.nodes := by
  unfold joins at h
  obtain ⟨x, hx, h⟩ := List.mem_flatMap.1 h
  dsimp only at h
  split at h
  · cases h
  · obtain ⟨y, hy, h⟩ := List.mem_flatMap.1 h
    split at h
    · obtain ⟨a, -, rfl⟩ := List.mem_map.1 h
      exact ⟨hx, hy⟩
    · cases h

/-- The cells of two parts that meet are joined without a breach. -/
theorem joinCells_eq_ok (hg : g.IsIndexed) {left right : Cell σ} {s t : Span}
    (hl : left.Covers s) (hr : right.Covers t) (hmeet : s.stop = t.start) :
    (g.joins left right).mapM (fun j => Tree.join j.1 j.2.1 j.2.2) =
        .ok (g.joinedTrees left.nodes right.nodes) ∧
      (Cell.emptyOver (s.followedBy t)).addAll (g.joinedTrees left.nodes right.nodes) =
        .ok ⟨s.followedBy t, g.joinedTrees left.nodes right.nodes⟩ := by
  constructor
  · rw [← map_joins_eq hg]
    refine mapM_eq_ok fun j hj => ?_
    obtain ⟨hx, hy⟩ := mem_joins hj
    rw [Tree.join, hl.2 _ hx, hr.2 _ hy, if_pos hmeet]
  · refine Cell.addAll_eq_ok fun u hu => ?_
    obtain ⟨a, x, hx, y, hy, -, rfl⟩ := mem_joinedTrees.1 hu
    show x.span.followedBy y.span = s.followedBy t
    rw [hl.2 x hx, hr.2 y hy]

/-- The cell that a chart has over a part is the one of the recurrence, which covers it. -/
theorem covers_of_cellOver? (hp : policy.StaysOver) {i l : Nat} {c : Cell σ}
    (hc : g.cellOver? lookup policy text ⟨i, l⟩ = some c) : c.Covers ⟨i, l⟩ := by
  obtain ⟨-, rfl⟩ := cellOver?_eq_some_iff.1 hc
  exact ⟨rfl, fun t ht => span_of_mem_treesAt hp ht⟩

theorem parts_mk {i l k : Nat} (hk : k ≤ l) :
    (⟨i, l⟩ : Span).parts k = (⟨i, k⟩, ⟨(i + k : Nat), (l - k : Nat)⟩) := by
  simp only [Span.parts, Prod.mk.injEq, Span.mk.injEq, true_and]
  omega

/-- A split is tried as the recurrence tries it, when the chart has the cells of its parts. -/
theorem candidateAt_eq (hg : g.IsIndexed) (hp : policy.StaysOver) {chart : Chart (Cell σ)}
    {i l k : Nat} (h0 : 0 < k) (hk : k < l)
    (hl : chart.get? ⟨i, k⟩ = g.cellOver? lookup policy text ⟨i, k⟩)
    (hr : chart.get? ⟨(i + k : Nat), (l - k : Nat)⟩ =
      g.cellOver? lookup policy text ⟨(i + k : Nat), (l - k : Nat)⟩) :
    g.candidateAt chart ⟨i, l⟩ k =
      .ok (g.candidateOf? (g.treesAt lookup policy text) i l k) := by
  have hsplit : (⟨i, l⟩ : Span).split k = .ok ((⟨i, l⟩ : Span).parts k) :=
    Span.split_eq_ok ⟨by omega, by simpa using hk⟩
  unfold candidateAt candidateOf?
  simp only [hsplit, parts_mk (Nat.le_of_lt hk), bind, Except.bind, hl, hr]
  cases hleft : g.cellOver? lookup policy text ⟨i, k⟩ with
  | none =>
    have hn : g.treesAt lookup policy text i k = [] := cellOver?_eq_none_iff.1 hleft
    simp [hn, joinedTrees, pure, Except.pure]
  | some left =>
    cases hright : g.cellOver? lookup policy text ⟨(i + k : Nat), (l - k : Nat)⟩ with
    | none =>
      have hn : g.treesAt lookup policy text (i + k) (l - k) = [] :=
        cellOver?_eq_none_iff.1 hright
      simp [hn, joinedTrees, pure, Except.pure]
    | some right =>
      have hjoin := joinCells_eq_ok hg (covers_of_cellOver? hp hleft)
        (covers_of_cellOver? hp hright) (by simp [Span.stop])
      rw [followedBy_parts (Nat.le_of_lt hk)] at hjoin
      obtain ⟨hx, rfl⟩ := cellOver?_eq_some_iff.1 hleft
      obtain ⟨hy, rfl⟩ := cellOver?_eq_some_iff.1 hright
      simp only [treesOver_mk] at hx hy hjoin ⊢
      simp only [Cell.isEmpty, List.isEmpty_iff, hx, hy, hjoin.1, hjoin.2, Bool.or_eq_true, or_self,
        if_false]
      rfl

theorem splitsOf_mk (i l : Nat) :
    splitsOf ⟨i, l⟩ = (List.range (l - 1)).map fun k => ((k + 1 : Nat) : Int) := rfl

/-- The candidates of a span are those of the recurrence, when the chart has the cells of all
shorter spans within it. -/
theorem candidates_eq (hg : g.IsIndexed) (hp : policy.StaysOver) {chart : Chart (Cell σ)}
    {i l : Nat} (hget : ∀ j m : Nat, 0 < m → m < l → i ≤ j → j + m ≤ i + l →
      chart.get? ⟨j, m⟩ = g.cellOver? lookup policy text ⟨j, m⟩) :
    g.candidates chart ⟨i, l⟩ = .ok (g.candidatesAt lookup policy text i l) := by
  have hfound : (splitsOf ⟨i, l⟩).mapM (g.candidateAt chart ⟨i, l⟩) =
      .ok ((splitsOf ⟨i, l⟩).map fun k =>
        g.candidateOf? (g.treesAt lookup policy text) i l k.toNat) := by
    refine mapM_eq_ok fun k hk => ?_
    obtain ⟨m, hm, rfl⟩ := List.mem_map.1 (splitsOf_mk i l ▸ hk)
    have hm := List.mem_range.1 hm
    exact candidateAt_eq hg hp (by omega) (by omega)
      (hget i (m + 1) (by omega) (by omega) (by omega) (by omega))
      (hget (i + (m + 1)) (l - (m + 1)) (by omega) (by omega) (by omega) (by omega))
  unfold candidates
  rw [hfound, splitsOf_mk, List.map_map]
  show Except.ok _ = Except.ok _
  rw [List.filterMap_map]
  rfl

end Grammar

namespace Filling

open Grammar

variable {g : Grammar σ} {lookup : Char → Option σ} {policy : Policy σ} {text : List Char}
variable {done : List Span} {f : Filling σ} {s : Span}

/-! ### One step -/

/-- A cell of the recurrence over a free span within the text is committed. -/
theorem IsAfter.exists_commit (h : f.IsAfter g lookup policy text done) {c : Cell σ}
    (hs : s ∉ done) (hfit : 0 ≤ s.start ∧ s.stop ≤ text.length)
    (hc : g.cellOver? lookup policy text s = some c) :
    ∃ chart, f.chart.commit s c = .ok chart ∧ chart.size = text.length ∧
      chart.entries = (done ++ [s]).filterMap
        (fun s => (g.cellOver? lookup policy text s).map fun c => (s, c)) ∧
      chart.index = Chart.indexOf chart.latest ∧ chart.diagnostics = f.chart.diagnostics := by
  have hfree := h.get?_of_not_mem hs
  have hfits : f.chart.Fits s := ⟨hfit.1, h.size ▸ hfit.2⟩
  refine ⟨_, Chart.commit_eq_ok hfree hfits, h.size, ?_, ?_, rfl⟩
  · rw [Chart.entries_enter, h.entries, List.filterMap_append]
    simp [hc]
  · show f.chart.index.insert s c = Chart.indexOf ((s, c) :: f.chart.latest)
    rw [h.index]
    rfl

/-- A span over which there are no trees leaves the entries of the chart alone. -/
theorem IsAfter.entries_append (h : f.IsAfter g lookup policy text done)
    (hc : g.cellOver? lookup policy text s = none) :
    f.chart.entries = (done ++ [s]).filterMap
      fun s => (g.cellOver? lookup policy text s).map fun c => (s, c) := by
  rw [h.entries, List.filterMap_append]
  simp [hc]

/-- Entering a character adds what its span adds. -/
theorem exists_enter [ToString σ] (hg : g.IsIndexed) (h : f.IsAfter g lookup policy text done)
    {i : Nat} {c : Char} (hc : text[i]? = some c) (hs : (⟨i, 1⟩ : Span) ∉ done) :
    ∃ f', Filling.enter g lookup f (c, i) = .ok f' ∧
      f'.IsAfter g lookup policy text (done ++ [⟨i, 1⟩]) := by
  have hcell : g.characterCell lookup i c = .ok (g.cellOver? lookup policy text ⟨i, 1⟩) :=
    characterCell_eq hg policy hc
  have hi : i < text.length := (List.getElem?_eq_some_iff.1 hc).1
  unfold Filling.enter
  cases hover : g.cellOver? lookup policy text ⟨i, 1⟩ with
  | none =>
    have hnil : (g.treesOver lookup policy text ⟨i, 1⟩).isEmpty = true := by
      rw [cellOver?_eq_none_iff.1 hover]
      rfl
    simp only [hcell, hover, bind, Except.bind]
    refine ⟨_, rfl, ⟨h.size, h.entries_append hover, h.index, ?_, ?_, ?_⟩⟩
    · show f.chart.diagnostics ++ _ = _
      rw [h.diagnostics, List.filterMap_append]
      simp [diagnosticOver?, hnil, hc]
    · show f.contests = _
      rw [h.contests, List.filterMap_append]
      simp [contestOver?]
    · show (_ :: f.latestLog).reverse = _
      rw [List.reverse_cons, List.filterMap_append, ← h.log]
      simp [logOver?, hnil, hc, Filling.log]
  | some cell =>
    obtain ⟨hne, rfl⟩ := cellOver?_eq_some_iff.1 hover
    obtain ⟨chart, hcommit, hsize, hentries, hindex, hdiagnostics⟩ :=
      h.exists_commit hs ⟨Int.natCast_nonneg i, by simp only [Span.stop]; omega⟩ hover
    simp only [hcell, hover, bind, Except.bind, hcommit]
    refine ⟨_, rfl, ⟨hsize, hentries, hindex, ?_, ?_, ?_⟩⟩
    · show chart.diagnostics = _
      rw [hdiagnostics, h.diagnostics, List.filterMap_append]
      simp [diagnosticOver?, hne]
    · show f.contests = _
      rw [h.contests, List.filterMap_append]
      simp [contestOver?]
    · show f.log = _
      rw [h.log, List.filterMap_append]
      simp [logOver?, hne]

/-- A longer span adds no diagnostic. -/
theorem IsAfter.diagnostics_append (h : f.IsAfter g lookup policy text done) {i l : Nat}
    (hl : 2 ≤ l) : f.chart.diagnostics = remarksOn text ++
      (done ++ [(⟨i, l⟩ : Span)]).filterMap (g.diagnosticOver? lookup policy text) := by
  have hlen : ¬ (l : Int) = 1 := by omega
  rw [h.diagnostics, List.filterMap_append]
  simp [diagnosticOver?, hlen]

/-- A longer span adds its contest. -/
theorem IsAfter.contests_append (h : f.IsAfter g lookup policy text done) {i l : Nat}
    (hl : 2 ≤ l) : (g.contestOver lookup policy text ⟨i, l⟩ :: f.latestContests).reverse =
      (done ++ [(⟨i, l⟩ : Span)]).filterMap (g.contestOver? lookup policy text) := by
  have hlen : ¬ (l : Int) = 1 := by omega
  rw [List.reverse_cons, List.filterMap_append, ← h.contests]
  simp [contestOver?, hlen, Filling.contests]

/-- A longer span without trees adds its contest and nothing else. -/
theorem IsAfter.append_contest (h : f.IsAfter g lookup policy text done) {i l : Nat}
    (hl : 2 ≤ l) (hnil : g.treesAt lookup policy text i l = []) :
    IsAfter g lookup policy text (done ++ [⟨i, l⟩])
      { f with latestContests := g.contestOver lookup policy text ⟨i, l⟩ :: f.latestContests } := by
  have hlen : ¬ (l : Int) = 1 := by omega
  refine ⟨h.size, h.entries_append (cellOver?_eq_none_iff.2 hnil), h.index,
    h.diagnostics_append hl, h.contests_append hl, ?_⟩
  show f.log = _
  rw [h.log, List.filterMap_append]
  simp [logOver?, hlen, hnil]

/-- A longer span with trees also tells of its contest. -/
theorem IsAfter.log_append (h : f.IsAfter g lookup policy text done) {i l : Nat} (hl : 2 ≤ l)
    (hne : g.treesAt lookup policy text i l ≠ []) :
    ((contestLog (g.contestOver lookup policy text ⟨i, l⟩)).toList ++ f.latestLog).reverse =
      (done ++ [(⟨i, l⟩ : Span)]).filterMap (g.logOver? lookup policy text) := by
  have hlen : ¬ (l : Int) = 1 := by omega
  have hlog : g.logOver? lookup policy text ⟨i, l⟩ =
      contestLog (g.contestOver lookup policy text ⟨i, l⟩) := by
    simp [logOver?, hlen, hne]
  rw [List.reverse_append, List.filterMap_append, ← show f.log = _ from h.log]
  congr 1
  cases hentry : contestLog (g.contestOver lookup policy text ⟨i, l⟩) <;> simp [hlog, hentry]

/-- Deciding a longer span, when the shorter ones within it are done, adds what it adds. -/
theorem exists_combine (hg : g.IsIndexed) (hp : policy.StaysOver)
    (h : f.IsAfter g lookup policy text done) {i l : Nat} (hl : 2 ≤ l) (hi : i + l ≤ text.length)
    (hs : (⟨i, l⟩ : Span) ∉ done)
    (hparts : ∀ j m : Nat, 0 < m → m < l → j + m ≤ text.length → (⟨j, m⟩ : Span) ∈ done) :
    ∃ f', Filling.combine g policy f ⟨i, l⟩ = .ok f' ∧
      f'.IsAfter g lookup policy text (done ++ [⟨i, l⟩]) := by
  have hcandidates : g.candidates f.chart ⟨i, l⟩ =
      .ok (g.candidatesAt lookup policy text i l) :=
    candidates_eq hg hp fun j m h0 hm _ hj => h.get?_of_mem (hparts j m h0 hm (by omega))
  have hcovers : ∀ c ∈ g.candidatesAt lookup policy text i l, c.cell.Covers ⟨i, l⟩ :=
    fun c hc => covers_of_mem_candidatesAt hp hc
  have htrees : g.treesAt lookup policy text i l =
      (policy (g.candidatesAt lookup policy text i l)).trees := treesAt_of_two_le hl
  unfold Filling.combine
  simp only [hcandidates, bind, Except.bind]
  cases hchoice : (policy (g.candidatesAt lookup policy text i l)).cell? with
  | none =>
    refine ⟨_, rfl, h.append_contest hl ?_⟩
    rw [htrees, Choice.trees, hchoice]
  | some cell =>
    have hnodes : g.treesAt lookup policy text i l = cell.nodes := by
      rw [htrees, Choice.trees, hchoice]
    -- an empty cell is not committed
    by_cases hnil : cell.nodes = []
    · have he : cell.isEmpty = true := by simp [Cell.isEmpty, hnil]
      simp only [he, if_true]
      exact ⟨_, rfl, h.append_contest hl (hnodes.trans hnil)⟩
    · have he : cell.isEmpty = false := by simp [Cell.isEmpty, hnil]
      have hspan : cell.span = ⟨i, l⟩ := (hp _ _ hcovers cell hchoice hnil).1
      have hover : g.cellOver? lookup policy text ⟨i, l⟩ = some cell := by
        rw [cellOver?_eq_some_iff, treesOver_mk, hnodes, ← hspan]
        exact ⟨hnil, rfl⟩
      obtain ⟨chart, hcommit, hsize, hentries, hindex, hdiagnostics⟩ :=
        h.exists_commit hs ⟨Int.natCast_nonneg i, by simp only [Span.stop]; omega⟩ hover
      simp only [he, hspan, hcommit]
      exact ⟨_, rfl, ⟨hsize, hentries, hindex, hdiagnostics.trans (h.diagnostics_append hl),
        h.contests_append hl, h.log_append hl (hnodes ▸ hnil)⟩⟩

/-! ### The whole run -/

/-- Entering all characters of a text adds what the spans of one character add. -/
theorem exists_enterAll [ToString σ] (hg : g.IsIndexed) (hne : text ≠ []) :
    ∃ f, text.zipIdx.foldlM (Filling.enter g lookup) (start text.length) = .ok f ∧
      f.IsAfter g lookup policy text (shortestSpans text.length) := by
  have hspans := shortestSpans_eq_map_zipIdx text
  have next : ∀ done (e : Char × Nat) rest, text.zipIdx = done ++ e :: rest →
      ∀ f : Filling σ, f.IsAfter g lookup policy text (done.map fun e => ⟨e.2, 1⟩) →
        ∃ f', Filling.enter g lookup f e = .ok f' ∧
          f'.IsAfter g lookup policy text ((done ++ [e]).map fun e => ⟨e.2, 1⟩) := by
    rintro done ⟨c, i⟩ rest hsplit f hf
    have hc : text[i]? = some c := by
      have : (c, i) ∈ text.zipIdx := by simp [hsplit]
      exact List.mem_zipIdx_iff_getElem?.1 this
    have hsplit' : spansOf text.length = done.map (fun e => (⟨e.2, 1⟩ : Span)) ++
        ⟨i, 1⟩ :: (rest.map (fun e => (⟨e.2, 1⟩ : Span)) ++ longerSpans text.length) := by
      rw [spansOf, hspans, hsplit]
      simp
    obtain ⟨f', hstep, hf'⟩ := exists_enter hg hf hc (not_mem_of_append hsplit')
    exact ⟨f', hstep, by simpa using hf'⟩
  obtain ⟨f, hrun, hf⟩ := foldlM_invariant
    (fun (done : List (Char × Nat)) (f : Filling σ) =>
      f.IsAfter g lookup policy text (done.map fun e => ⟨e.2, 1⟩))
    (isAfter_start hne) next
  exact ⟨f, hrun, hspans.symm ▸ hf⟩

/-- Deciding the longer spans after that adds what they add. -/
theorem exists_combineAll (hg : g.IsIndexed) (hp : policy.StaysOver)
    (h : f.IsAfter g lookup policy text (shortestSpans text.length)) :
    ∃ f', (longerSpans text.length).foldlM (Filling.combine g policy) f = .ok f' ∧
      f'.IsAfter g lookup policy text (spansOf text.length) := by
  have next : ∀ done s rest, longerSpans text.length = done ++ s :: rest →
      ∀ f : Filling σ, f.IsAfter g lookup policy text (shortestSpans text.length ++ done) →
        ∃ f', Filling.combine g policy f s = .ok f' ∧
          f'.IsAfter g lookup policy text (shortestSpans text.length ++ (done ++ [s])) := by
    intro done s rest hsplit f hf
    have hs : s ∈ longerSpans text.length := by simp [hsplit]
    obtain ⟨i, l, hl, hi, rfl⟩ := mem_longerSpans.1 hs
    have hsplit' : spansOf text.length =
        (shortestSpans text.length ++ done) ++ ⟨i, l⟩ :: rest := by
      rw [spansOf, hsplit, List.append_assoc]
    have hparts : ∀ j m : Nat, 0 < m → m < l → j + m ≤ text.length →
        (⟨j, m⟩ : Span) ∈ shortestSpans text.length ++ done := by
      intro j m h0 hm hj
      exact mem_of_precedes hsplit' (mem_spansOf.2 ⟨j, m, h0, hj, rfl⟩) (.inl (Int.ofNat_lt.2 hm))
    obtain ⟨f', hstep, hf'⟩ := exists_combine hg hp hf hl hi (not_mem_of_append hsplit') hparts
    exact ⟨f', hstep, by simpa using hf'⟩
  exact foldlM_invariant
    (fun done (f : Filling σ) =>
      f.IsAfter g lookup policy text (shortestSpans text.length ++ done))
    (by simpa using h) next

end Filling

namespace Grammar

variable {g : Grammar σ} {lookup : Char → Option σ} {policy : Policy σ} {text : List Char}

/-- Filling the chart of a text succeeds and adds what the spans of the text add. -/
theorem fill_eq_ok [ToString σ] (hg : g.IsIndexed) (hp : policy.StaysOver) (text : List Char) :
    ∃ f, g.fill lookup policy text = .ok f ∧ f.IsFull g lookup policy text := by
  unfold fill
  by_cases hne : text = []
  · subst hne
    exact ⟨_, rfl, ⟨rfl, rfl, rfl, rfl, rfl, rfl⟩⟩
  · obtain ⟨f, henter, hf⟩ : ∃ f,
        text.zipIdx.foldlM (Filling.enter g lookup) (Filling.start text.length) = .ok f ∧
          f.IsAfter g lookup policy text (shortestSpans text.length) :=
      Filling.exists_enterAll hg hne
    obtain ⟨f', hcombine, hf'⟩ := Filling.exists_combineAll hg hp hf
    refine ⟨f', ?_, hf'⟩
    have he : text.isEmpty = false := by simpa using hne
    simp [he, henter, hcombine, bind, Except.bind]

end Grammar

end ChartParsing
