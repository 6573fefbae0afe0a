import ChartParsing.Proofs.Tree.Hanging
import ChartParsing.Proofs.Tree.Labels

/-!
# A plain outline determines its tree

Every node has a line of its own, in the order of the walk over the nodes, and on it a guide of four
columns for each step from the root (`map_some_outlineLines`). The depth of a node can be read off
its guide whatever its label looks like (`readDepth_guide`). From equal outlines the same tree is
read back line by line: a label tells where a node above the leaves begins and ends, and a leaf
begins where its parent does or where its sibling ends (`eq_of_outlineLines_append_eq`).

An outline has no width here: no line is ever cut or broken.
-/

namespace ChartParsing

/-- Whether a character is a control character. -/
def IsControl (c : Char) : Prop :=
  c.toNat < 0x20 ∨ 0x7f ≤ c.toNat ∧ c.toNat < 0xa0

/-- The lines of a text. -/
def textLines (s : String) : List String :=
  (s.toList.splitOn '\n').map String.ofList

/-- The lines that were put together are read back. -/
theorem textLines_intercalate {lines : List String} (hne : lines ≠ [])
    (h : ∀ line ∈ lines, '\n' ∉ line.toList) : textLines ("\n".intercalate lines) = lines := by
  have hsplit : (['\n'].intercalate (lines.map String.toList)).splitOn '\n' =
      lines.map String.toList :=
    List.splitOn_intercalate '\n' (List.forall_mem_map.2 h) (by simpa using hne)
  rw [textLines, String.toList_intercalate]
  exact (congrArg (List.map String.ofList) hsplit).trans (by simp [Function.comp_def])

namespace Tree

section Guides

/-- The columns of the last step to a node: the branch at which it hangs. -/
def branchColumns (last : Bool) : String :=
  if last then "└── " else "├── "

/-- The columns of an earlier step: the stroke beside a child with a sibling still to come. -/
def strokeColumns (last : Bool) : String :=
  if last then "    " else "│   "

/-- The guide of a node, for the steps down to it, each to a last child or not. -/
def guide : List Bool → String
  | [] => ""
  | [last] => branchColumns last
  | last :: step :: steps => strokeColumns last ++ guide (step :: steps)

/-- For each step of an address whether it leads to the last child. -/
def lastSteps {σ : Type} : Tree σ → List Nat → List Bool
  | _, [] => []
  | t, i :: address =>
    (i + 1 == t.children.length) ::
      (t.children[i]?.map fun child => child.lastSteps address).getD []

/-- The depth of a node below the root, read off the front of its line: the strokes are counted, up
to the branch. -/
def readDepth : List Char → Nat
  | a :: _ :: _ :: _ :: rest => if a = '├' ∨ a = '└' then 1 else readDepth rest + 1
  | _ => 0

theorem length_lastSteps {σ : Type} {t : Tree σ} {address : List Nat}
    (h : (t.at? address).isSome) : (t.lastSteps address).length = address.length := by
  induction address generalizing t with
  | nil => rfl
  | cons i address ih =>
    rw [at?_cons] at h
    rw [lastSteps, List.length_cons, List.length_cons]
    cases hchild : t.children[i]? with
    | none => simp [hchild] at h
    | some child =>
      rw [hchild] at h
      exact congrArg (· + 1) (ih h)

theorem length_guide (steps : List Bool) : (guide steps).length = 4 * steps.length := by
  induction steps using guide.induct with
  | case1 => rfl
  | case2 last => cases last <;> rfl
  | case3 last step steps ih =>
    have hstroke : (strokeColumns last).length = 4 := by cases last <;> rfl
    rw [guide, String.length_append, hstroke, ih, List.length_cons (a := last)]
    omega

/-- Whatever the label looks like, the guide in front of it tells how deep a node stands. -/
theorem readDepth_guide {steps : List Bool} (h : steps ≠ []) (label : List Char) :
    readDepth ((guide steps).toList ++ label) = steps.length := by
  induction steps using guide.induct with
  | case1 => exact absurd rfl h
  | case2 last => cases last <;> rfl
  | case3 last step steps ih =>
    have hstroke : ∀ rest : List Char,
        readDepth ((strokeColumns last).toList ++ rest) = readDepth rest + 1 := by
      intro rest
      cases last <;> rfl
    rw [guide, String.toList_append, List.append_assoc, hstroke, ih (List.cons_ne_nil _ _)]
    rfl

theorem newline_not_mem_guide (steps : List Bool) : '\n' ∉ (guide steps).toList := by
  induction steps using guide.induct with
  | case1 => decide
  | case2 last => cases last <;> decide
  | case3 last step steps ih =>
    rw [guide, String.toList_append, List.mem_append, not_or]
    refine ⟨?_, ih⟩
    cases last <;> decide

/-- The guide of a node in an outline with other guides at its root. -/
def guideUnder (here below : String) : List Bool → String
  | [] => here
  | step :: steps => below ++ guide (step :: steps)

theorem guideUnder_empty (steps : List Bool) : guideUnder "" "" steps = guide steps := by
  cases steps with
  | nil => rfl
  | cons step steps => exact String.empty_append

theorem guideUnder_columns (below : String) (last : Bool) (steps : List Bool) :
    guideUnder (below ++ branchColumns last) (below ++ strokeColumns last) steps =
      below ++ guide (last :: steps) := by
  cases steps with
  | nil => rfl
  | cons step steps => rw [guideUnder, guide, String.append_assoc]

end Guides

variable {t u : Tree Symbol} {names : NameTable}

/-- The lines of an outline show the nodes at the addresses of the tree, in their order, each behind
the guide of its address. -/
theorem map_some_outlineLines (label : Tree Symbol → String) (here below : String)
    (t : Tree Symbol) : (t.outlineLines label here below).map some = t.addresses.map fun address =>
      (t.at? address).map fun u => guideUnder here below (t.lastSteps address) ++ label u := by
  induction t generalizing here below with
  | leaf l => rfl
  | unary kind child => rfl
  | binary kind span left right ihl ihr =>
    rw [outlineLines, addresses, List.map_cons, List.map_cons, List.map_append, List.map_append,
      List.map_map, List.map_map]
    refine congrArg₂ List.cons rfl (congrArg₂ HAppend.hAppend ?_ ?_)
    · refine (ihl (below ++ branchColumns false) (below ++ strokeColumns false)).trans ?_
      simp only [guideUnder_columns]
      rfl
    · refine (ihr (below ++ branchColumns true) (below ++ strokeColumns true)).trans ?_
      simp only [guideUnder_columns]
      rfl

/-- Every symbol in a tree has a name in a table. -/
def IsNamed (names : NameTable) (t : Tree Symbol) : Prop :=
  ∀ u ∈ t.nodes, ∃ name, names.resolve u.kind = .ok name

/-- The plain label of a node over a table, where a symbol without a name has the empty one. -/
def plainLabel (names : NameTable) (t : Tree Symbol) : String :=
  outlineLabel .plain ((names.resolve? t.kind).getD "") t

theorem plainLabel_of_resolve {name : String} (h : names.resolve t.kind = .ok name) :
    plainLabel names t = outlineLabel .plain name t := by
  unfold NameTable.resolve at h
  split at h
  · rename_i hname
    cases h
    rw [plainLabel, hname, Option.getD_some]
  · cases h

theorem IsNamed.of_mem_children (h : IsNamed names t) {child : Tree Symbol}
    (hchild : child ∈ t.children) : IsNamed names child :=
  fun _ hu => h _ (mem_nodes_of_mem_children hchild hu)

/-- A tree whose symbols have names has an outline, of plain labels. -/
theorem IsNamed.outline_eq_ok (h : IsNamed names t) : t.outline .plain names =
    .ok ("\n".intercalate (t.outlineLines (plainLabel names) "" "")) := by
  refine Tree.outline_eq_ok fun u hu => ?_
  obtain ⟨name, hname⟩ := h u hu
  rw [label, hname, plainLabel_of_resolve hname]
  rfl

/-- Labels of nodes with names tell everything about the nodes but where a leaf stands. -/
theorem root_eq_of_plainLabel_eq (hnodup : names.names.Nodup) (ht : t.IsContiguous)
    (hu : u.IsContiguous) (htn : IsNamed names t) (hun : IsNamed names u)
    (h : plainLabel names t = plainLabel names u) :
    t.kind = u.kind ∧ t.shape = u.shape ∧ (t.shape ≠ .leaf → t.span = u.span) := by
  obtain ⟨name, hname⟩ := htn t (mem_nodes_self t)
  obtain ⟨name', hname'⟩ := hun u (mem_nodes_self u)
  rw [plainLabel_of_resolve hname, plainLabel_of_resolve hname'] at h
  obtain ⟨rfl, hleaf, hspan⟩ := outlineLabel_inj h
  have hfind := (NameTable.find?_eq_some_iff_of_nodup hnodup).2 hname
  rw [(NameTable.find?_eq_some_iff_of_nodup hnodup).2 hname'] at hfind
  exact ⟨(Option.some.inj hfind).symm, ht.shape_eq hu hleaf hspan, hspan⟩

theorem head?_outlineLines (label : Tree Symbol → String) (here below : String)
    (t : Tree Symbol) : (t.outlineLines label here below).head? = some (here ++ label t) := by
  cases t <;> rfl

/-- The first of the lines that begin with an outline shows the root. -/
theorem root_eq_of_outlineLines (hnodup : names.names.Nodup) {here below : String}
    {rest rest' : List String} (ht : t.IsContiguous) (hu : u.IsContiguous) (htn : IsNamed names t)
    (hun : IsNamed names u) (h : t.outlineLines (plainLabel names) here below ++ rest =
      u.outlineLines (plainLabel names) here below ++ rest') :
    t.kind = u.kind ∧ t.shape = u.shape ∧ (t.shape ≠ .leaf → t.span = u.span) := by
  have hhead := congrArg List.head? h
  rw [List.head?_append, List.head?_append, head?_outlineLines, head?_outlineLines] at hhead
  have hlabel := (String.append_right_inj here).1 (Option.some.inj hhead)
  exact root_eq_of_plainLabel_eq hnodup ht hu htn hun hlabel

/-- Leaves that start at one place and have one label are the same. -/
theorem leaf_eq_of_plainLabel_eq (hnodup : names.names.Nodup) {l l' : Leaf Symbol}
    (hl : IsNamed names (leaf l)) (hl' : IsNamed names (leaf l'))
    (hstart : l.position = l'.position)
    (h : plainLabel names (leaf l) = plainLabel names (leaf l')) : l = l' := by
  have hkind : l.kind = l'.kind :=
    (root_eq_of_plainLabel_eq (t := leaf l) (u := leaf l') hnodup trivial trivial hl hl' h).1
  obtain ⟨kind, position⟩ := l
  exact congrArg₂ Leaf.mk hkind hstart

/-- From lines that begin with the outline of a tree the tree is read back, once it is known where
it starts: its left part starts where it does, and its right part where the left one ends. -/
theorem eq_of_outlineLines_append_eq (hnodup : names.names.Nodup) {here below : String}
    {rest rest' : List String} (ht : t.IsContiguous) (hu : u.IsContiguous)
    (htn : IsNamed names t) (hun : IsNamed names u) (hstart : t.span.start = u.span.start)
    (h : t.outlineLines (plainLabel names) here below ++ rest =
      u.outlineLines (plainLabel names) here below ++ rest') : t = u ∧ rest = rest' := by
  induction t generalizing u here below rest rest' with
  | leaf l =>
    obtain ⟨-, hshape, -⟩ := root_eq_of_outlineLines hnodup ht hu htn hun h
    cases u with
    | leaf l' =>
      obtain ⟨hline, hrest⟩ := List.cons.inj h
      have hlabel := (String.append_right_inj here).1 hline
      exact ⟨congrArg leaf (leaf_eq_of_plainLabel_eq hnodup htn hun hstart hlabel), hrest⟩
    | unary => cases hshape
    | binary => cases hshape
  | unary kind child =>
    obtain ⟨hkind, hshape, -⟩ := root_eq_of_outlineLines hnodup ht hu htn hun h
    cases u with
    | leaf => cases hshape
    | unary kind' child' =>
      obtain ⟨-, hbelow⟩ := List.cons.inj h
      obtain ⟨hline, hrest⟩ := List.cons.inj hbelow
      have hlabel := (String.append_right_inj (below ++ "└── ")).1 hline
      have hchild := leaf_eq_of_plainLabel_eq hnodup (htn.of_mem_children List.mem_cons_self)
        (hun.of_mem_children List.mem_cons_self) hstart hlabel
      exact ⟨congrArg₂ unary hkind hchild, hrest⟩
    | binary => cases hshape
  | binary kind span left right ihl ihr =>
    obtain ⟨hkind, hshape, hspan⟩ := root_eq_of_outlineLines hnodup ht hu htn hun h
    cases u with
    | leaf => cases hshape
    | unary => cases hshape
    | binary kind' span' left' right' =>
      obtain rfl : kind = kind' := hkind
      obtain rfl : span = span' := hspan (by simp [shape])
      obtain ⟨hleftStart, hmeet, -⟩ := ht.parts
      obtain ⟨hleftStart', hmeet', -⟩ := hu.parts
      rw [outlineLines, outlineLines, List.cons_append, List.cons_append, List.append_assoc,
        List.append_assoc] at h
      obtain ⟨-, hparts⟩ := List.cons.inj h
      obtain ⟨rfl, hright⟩ := ihl ht.2.1 hu.2.1 (htn.of_mem_children (by simp [children]))
        (hun.of_mem_children (by simp [children])) (hleftStart.trans hleftStart'.symm) hparts
      obtain ⟨rfl, hrest⟩ := ihr ht.2.2 hu.2.2 (htn.of_mem_children (by simp [children]))
        (hun.of_mem_children (by simp [children])) (hmeet.symm.trans hmeet') hright
      exact ⟨rfl, hrest⟩

/-- Names without control characters leave a label on one line. -/
theorem newline_not_mem_outlineLabel
    (hnames : ∀ name ∈ names.names, ∀ c ∈ name.toList, ¬IsControl c)
    {name : String} (hname : names.resolve t.kind = .ok name) :
    '\n' ∉ (outlineLabel .plain name t).toList := by
  by_cases hleaf : t.shape = .leaf
  · cases t with
    | leaf l => exact Text.newline_not_mem_literal name
    | unary => cases hleaf
    | binary => cases hleaf
  · obtain ⟨i, -, hi⟩ := NameTable.resolve_eq_ok_iff.1 hname
    have hplain : '\n' ∉ name.toList := fun h =>
      hnames name (List.mem_of_getElem? hi) '\n' h (.inl (by decide))
    have hspan : '\n' ∉ t.span.literal.toList := fun h => by
      have := Span.isDigit_or_mem_of_mem_literal h
      revert this
      decide
    simp [outlineLabel_of_ne hleaf, hplain, hspan]

/-- A tree above the leaves that the checked constructors build, all of whose symbols have names in
a table. -/
structure IsOver (names : NameTable) (t : Tree Symbol) : Prop where
  built : t.IsBuilt
  above : t.shape ≠ .leaf
  named : IsNamed names t

/-- An outline shows a tree: it has a line for each node, and on the line of a node its label stands
behind the guide of its address, with four columns for each step from the root. Below the root the
depth of a node can be read off its line. -/
structure IsOutlinedBy (t : Tree Symbol) (names : NameTable) (output : String) : Prop where
  length_lines : (textLines output).length = t.size
  line : ∀ i u, t.nodes[i]? = some u → ∃ address name,
    t.addresses[i]? = some address ∧ t.at? address = some u ∧ names.resolve u.kind = .ok name ∧
      (textLines output)[i]? =
        some (guide (t.lastSteps address) ++ outlineLabel .plain name u) ∧
      (guide (t.lastSteps address)).length = 4 * address.length ∧
      (0 < i → readDepth (guide (t.lastSteps address) ++ outlineLabel .plain name u).toList =
        address.length)

/-- The line of a node shows its label behind the guide of its address. -/
theorem exists_line (htn : IsNamed names t) {i : Nat} (hi : t.nodes[i]? = some u) :
    ∃ address name, t.addresses[i]? = some address ∧ t.at? address = some u ∧
      names.resolve u.kind = .ok name ∧ (t.outlineLines (plainLabel names) "" "")[i]? =
        some (guide (t.lastSteps address) ++ outlineLabel .plain name u) := by
  obtain ⟨name, hname⟩ := htn u (List.mem_of_getElem? hi)
  have hnode : (t.addresses.map t.at?)[i]? = some (some u) := by
    rw [← map_some_nodes, List.getElem?_map, hi]
    rfl
  rw [List.getElem?_map, Option.map_eq_some_iff] at hnode
  obtain ⟨address, haddress, hat⟩ := hnode
  have hline := congrArg (·[i]?) (map_some_outlineLines (plainLabel names) "" "" t)
  simp only [List.getElem?_map, haddress, Option.map_some, hat, guideUnder_empty] at hline
  obtain ⟨line, hline, he⟩ := Option.map_eq_some_iff.1 hline
  refine ⟨address, name, haddress, hat, hname, ?_⟩
  rw [hline, he, plainLabel_of_resolve hname]

theorem length_outlineLines (label : Tree Symbol → String) (here below : String)
    (t : Tree Symbol) : (t.outlineLines label here below).length = t.size := by
  have hlines := congrArg List.length (map_some_outlineLines label here below t)
  have hnodes := congrArg List.length (map_some_nodes t)
  rw [List.length_map, List.length_map] at hlines hnodes
  exact hlines.trans hnodes.symm

/-- Only the root is at the address without steps. -/
theorem ne_nil_of_getElem?_addresses {address : List Nat} {i : Nat} (hi : 0 < i)
    (h : t.addresses[i]? = some address) : address ≠ [] := by
  rintro rfl
  have hroot : t.addresses[0]? = some [] := by cases t <;> rfl
  obtain ⟨hlt, hlast⟩ := List.getElem?_eq_some_iff.1 h
  obtain ⟨hlt', hfirst⟩ := List.getElem?_eq_some_iff.1 hroot
  have hless := List.pairwise_iff_getElem.1 (pairwise_addresses t) 0 i hlt' hlt hi
  rw [hfirst, hlast] at hless
  exact absurd hless (List.not_lt_nil [])

/-- The lines of the outline are what the reader of a text finds. -/
theorem textLines_outline (hnames : ∀ name ∈ names.names, ∀ c ∈ name.toList, ¬IsControl c)
    (htn : IsNamed names t) :
    textLines ("\n".intercalate (t.outlineLines (plainLabel names) "" "")) =
      t.outlineLines (plainLabel names) "" "" := by
  refine textLines_intercalate (fun h => ?_) fun line hline => ?_
  · have hhead := head?_outlineLines (plainLabel names) "" "" t
    rw [h] at hhead
    cases hhead
  · obtain ⟨i, hi⟩ := List.mem_iff_getElem?.1 hline
    have hlt : i < t.nodes.length := by
      rw [← size, ← length_outlineLines (plainLabel names) "" "" t]
      exact (List.getElem?_eq_some_iff.1 hi).1
    obtain ⟨address, name, -, -, hname, hshown⟩ := exists_line htn (List.getElem?_eq_getElem hlt)
    rw [hi] at hshown
    rw [Option.some.inj hshown, String.toList_append, List.mem_append, not_or]
    exact ⟨newline_not_mem_guide _, newline_not_mem_outlineLabel hnames hname⟩

/-- Trees with one outline are one tree. -/
theorem eq_of_outline_eq (hnodup : names.names.Nodup)
    (hnames : ∀ name ∈ names.names, ∀ c ∈ name.toList, ¬IsControl c) (ht : IsOver names t)
    (hu : IsOver names u) (h : t.outline .plain names = u.outline .plain names) : t = u := by
  have hlines : t.outlineLines (plainLabel names) "" "" ++ [] =
      u.outlineLines (plainLabel names) "" "" ++ [] := by
    rw [ht.named.outline_eq_ok, hu.named.outline_eq_ok] at h
    rw [← textLines_outline hnames ht.named, ← textLines_outline hnames hu.named, Except.ok.inj h]
  have htc := ht.built.isContiguous
  have huc := hu.built.isContiguous
  obtain ⟨-, -, hspan⟩ := root_eq_of_outlineLines hnodup htc huc ht.named hu.named hlines
  exact (eq_of_outlineLines_append_eq hnodup htc huc ht.named hu.named
    (congrArg Span.start (hspan ht.above)) hlines).1

/-- Over a table that has no name twice and no control character in a name, the plain outline shows
every tree above the leaves, and only one tree has it. -/
theorem plain_outline_determines (names : NameTable) (hnodup : names.names.Nodup)
    (hnames : ∀ name ∈ names.names, ∀ c ∈ name.toList, ¬IsControl c) (t : Tree Symbol)
    (ht : IsOver names t) :
    ∃ output, t.outline .plain names = .ok output ∧ t.IsOutlinedBy names output ∧
      ∀ u : Tree Symbol, IsOver names u → u.outline .plain names = .ok output → u = t := by
  have hlines := textLines_outline hnames ht.named
  refine ⟨_, ht.named.outline_eq_ok, ⟨?_, fun i u hu => ?_⟩, fun u hu h => ?_⟩
  · rw [hlines, length_outlineLines]
  · obtain ⟨address, name, haddress, hat, hname, hline⟩ := exists_line ht.named hu
    have hsteps : (t.lastSteps address).length = address.length :=
      length_lastSteps (hat ▸ rfl)
    refine ⟨address, name, haddress, hat, hname, hlines.symm ▸ hline, ?_, fun hi => ?_⟩
    · rw [length_guide, hsteps]
    · have hne : t.lastSteps address ≠ [] := fun hnil =>
        ne_nil_of_getElem?_addresses hi haddress (List.length_eq_zero_iff.1 (hsteps ▸ hnil ▸ rfl))
      rw [String.toList_append, readDepth_guide hne, hsteps]
  · exact eq_of_outline_eq hnodup hnames hu ht (h.trans ht.named.outline_eq_ok.symm)

/-- A table with names that look like a guide, like a label with a span, and like a quoted leaf. -/
def disguises : NameTable := ⟨["├── S", "S [0,2)", "'S'"]⟩

/-- A tree with a leaf beside a binary node, over these names. -/
def disguised : Tree Symbol :=
  branch 1 (leaf ⟨2, -1⟩) (branch 0 (unary 0 ⟨1, 0⟩) (unary 2 ⟨1, 1⟩))

/-- The tree is shown by its outline all the same, and no other tree is. -/
theorem disguised_isOutlinedBy : ∃ output, disguised.outline .plain disguises = .ok output ∧
    output = "\n".intercalate ["S [0,2) [-1,2)", "├── \"'S'\"", "└── ├── S [0,2)",
      "    ├── ├── S [0,1)", "    │   └── 'S [0,2)'", "    └── 'S' [1,2)",
      "        └── 'S [0,2)'"] ∧
    disguised.IsOutlinedBy disguises output ∧
    ∀ u : Tree Symbol, IsOver disguises u → u.outline .plain disguises = .ok output →
      u = disguised := by
  have hnamed : IsNamed disguises disguised := by
    simp only [IsNamed, disguised, branch, nodes_binary, nodes_unary, nodes_leaf, List.cons_append,
      List.nil_append, List.forall_mem_cons]
    exact ⟨⟨_, rfl⟩, ⟨_, rfl⟩, ⟨_, rfl⟩, ⟨_, rfl⟩, ⟨_, rfl⟩, ⟨_, rfl⟩, ⟨_, rfl⟩, by simp⟩
  obtain ⟨output, houtline, hshown, honly⟩ := plain_outline_determines disguises (by decide)
    (by simp [disguises, IsControl]) disguised ⟨isBuilt_iff.2 (by decide), by decide, hnamed⟩
  refine ⟨output, houtline, Except.ok.inj (houtline.symm.trans ?_), hshown, honly⟩
  rw [hnamed.outline_eq_ok]
  rfl

end Tree

end ChartParsing
