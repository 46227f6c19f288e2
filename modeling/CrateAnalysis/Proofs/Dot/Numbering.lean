import CrateAnalysis.Proofs.Dot.Decode

/-!
# The numbers of nodes

A drawing numbers the nodes of a tree from 0 on in preorder, which is the order in which `subtrees`
lists the tree and the trees below its root. Every node has a line under its number, and every node
but the root an edge right after that line, which comes from the number of its parent. So the lines
of a drawing can be told from the tree that is shown, and from the number of its nodes how many
there are, whatever the labels are.
-/

set_option autoImplicit false

namespace CrateAnalysis

namespace Tree

variable {α β : Type}

/-! ## Numbers in preorder -/

/-- In a list of trees in preorder, the tree with the number `child` is a child of the one with the
number `parent`: between the two come the trees of the children to its left. -/
def ChildIn (listed : List (Tree α)) (parent child : Nat) : Prop :=
  ∃ name before t after, listed[parent]? = some (.rule name (before ++ t :: after)) ∧
    listed[child]? = some t ∧ child = parent + 1 + sizeAll before

/-- A child has a larger number than its parent. -/
theorem ChildIn.lt {listed : List (Tree α)} {parent child : Nat}
    (h : ChildIn listed parent child) : parent < child := by
  obtain ⟨_, _, _, _, -, -, rfl⟩ := h
  omega

/-- Trees before and after the listed ones do not matter, but for the numbers. -/
theorem ChildIn.shift {listed : List (Tree α)} {parent child : Nat}
    (h : ChildIn listed parent child) (front back : List (Tree α)) :
    ChildIn (front ++ (listed ++ back)) (front.length + parent) (front.length + child) := by
  have hgetElem : ∀ {i : Nat} {t : Tree α}, listed[i]? = some t →
      (front ++ (listed ++ back))[front.length + i]? = some t := by
    intro i t hi
    rw [List.getElem?_append_right (Nat.le_add_right _ _), Nat.add_sub_cancel_left,
      List.getElem?_append_left (List.getElem?_eq_some_iff.mp hi).1, hi]
  obtain ⟨name, before, t, after, hparent, hchild, hnumber⟩ := h
  exact ⟨name, before, t, after, hgetElem hparent, hgetElem hchild, by omega⟩

/-! ## The entries of a drawing -/

/-- The entries list what the nodes carry. -/
theorem map_node_entriesAll (parent? : Option Nat) (index : Nat) (trees : List (Tree α)) :
    (entriesAll parent? index trees).map Entry.node = nodesAll trees := by
  induction trees using forestInduction generalizing parent? index with
  | nil => rfl
  | leaf a trees ih =>
    rw [entriesAll, entries, List.map_append, ih, nodesAll_leaf, List.map_singleton,
      List.singleton_append]
  | rule name children trees ihchildren ih =>
    rw [entriesAll, entries, List.map_append, List.map_cons, ihchildren, ih, nodesAll_rule,
      List.cons_append]

/-- There are as many entries as nodes. -/
theorem length_entriesAll (parent? : Option Nat) (index : Nat) (trees : List (Tree α)) :
    (entriesAll parent? index trees).length = sizeAll trees := by
  have hlength := congrArg List.length (map_node_entriesAll parent? index trees)
  rwa [List.length_map, length_nodesAll] at hlength

/-- The numbers in an entry of several trees with one parent that are numbered from `index` on, the
entry being the one at the place `number`. Its parent is that of all the trees if its own tree is
one of them, and otherwise the tree of which it is a child. -/
structure Entry.Numbered (parent? : Option Nat) (index : Nat) (trees : List (Tree α))
    (number : Nat) (entry : Entry α) : Prop where
  index_eq : entry.index = index + number
  parent_cases :
    (∃ before t after, trees = before ++ t :: after ∧ number = sizeAll before ∧
      entry.parent? = parent?) ∨
    ∃ parent, ChildIn (subtreesAll trees) parent number ∧ entry.parent? = some (index + parent)

namespace Entry.Numbered

variable {parent? : Option Nat} {index number : Nat} {trees : List (Tree α)} {entry : Entry α}

/-- The first tree has the first number. -/
theorem first (parent? : Option Nat) (index : Nat) (t : Tree α) (trees : List (Tree α))
    (node : Node α) : Numbered parent? index (t :: trees) 0 ⟨index, parent?, node⟩ where
  index_eq := rfl
  parent_cases := .inl ⟨[], t, trees, rfl, rfl, rfl⟩

/-- What is said of some trees holds of them after one tree more. -/
theorem beside (t : Tree α) (h : Numbered parent? (index + t.size) trees number entry) :
    Numbered parent? index (t :: trees) (t.size + number) entry := by
  have hlength : t.subtrees.length = t.size := by
    rw [← subtreesAll_singleton, length_subtreesAll, sizeAll, sizeAll, Nat.add_zero]
  obtain ⟨hindex, hparent⟩ := h
  refine ⟨by omega, ?_⟩
  rcases hparent with ⟨before, u, after, rfl, rfl, hparent⟩ | ⟨parent, hchild, hparent⟩
  · exact .inl ⟨t :: before, u, after, rfl, rfl, hparent⟩
  · have hshift := hchild.shift t.subtrees []
    rw [List.append_nil, hlength] at hshift
    exact .inr ⟨t.size + parent, hshift, by rw [hparent, Nat.add_assoc]⟩

/-- What is said of the children of a rule holds of them as such, whatever comes after the rule. -/
theorem below (parent? : Option Nat) (name : String) (others : List (Tree α))
    (h : Numbered (some index) (index + 1) trees number entry) :
    Numbered parent? index (.rule name trees :: others) (number + 1) entry := by
  have hlisted : subtreesAll (.rule name trees :: others) =
      [.rule name trees] ++ (subtreesAll trees ++ subtreesAll others) := rfl
  obtain ⟨hindex, hparent⟩ := h
  refine ⟨by omega, .inr ?_⟩
  rcases hparent with ⟨before, t, after, rfl, rfl, hparent⟩ | ⟨parent, hchild, hparent⟩
  · -- the tree stands right below the rule, which has the number before all of its children
    refine ⟨0, ⟨name, before, t, after, rfl, ?_, by omega⟩, hparent⟩
    have ht := getElem?_subtreesAll before t after
    rw [hlisted, List.singleton_append, List.getElem?_cons_succ,
      List.getElem?_append_left (List.getElem?_eq_some_iff.mp ht).1, ht]
  · have hshift := hchild.shift [.rule name trees] (subtreesAll others)
    rw [← hlisted, List.length_singleton, Nat.add_comm 1, Nat.add_comm 1] at hshift
    exact ⟨parent + 1, hshift, by rw [hparent, Nat.add_assoc, Nat.add_comm 1]⟩

end Entry.Numbered

/-- Every entry has its place as its number, and the number of its parent. -/
theorem numbered_entriesAll {parent? : Option Nat} {index number : Nat} {trees : List (Tree α)}
    {entry : Entry α} (h : (entriesAll parent? index trees)[number]? = some entry) :
    entry.Numbered parent? index trees number := by
  induction trees using forestInduction generalizing parent? index number with
  | nil => cases h
  | leaf a trees ih =>
    rw [entriesAll, entries, List.singleton_append] at h
    cases number with
    | zero =>
      obtain rfl := Option.some.inj h
      exact .first parent? index (.leaf a) trees _
    | succ number =>
      have hbeside := Entry.Numbered.beside (.leaf a) (ih h)
      rwa [size, Nat.add_comm] at hbeside
  | rule name children trees ihchildren ih =>
    rw [entriesAll, entries, List.cons_append] at h
    cases number with
    | zero =>
      obtain rfl := Option.some.inj h
      exact .first parent? index (.rule name children) trees _
    | succ number =>
      rw [List.getElem?_cons_succ] at h
      by_cases hnumber : number < sizeAll children
      · rw [List.getElem?_append_left (by rwa [length_entriesAll])] at h
        exact (ihchildren h).below parent? name trees
      · rw [List.getElem?_append_right (by rw [length_entriesAll]; omega),
          length_entriesAll] at h
        have hbeside := Entry.Numbered.beside (.rule name children) (ih h)
        have hsum : (rule name children).size + (number - sizeAll children) = number + 1 := by
          rw [size]
          omega
        rwa [hsum] at hbeside

/-! ## Entries of a relabelled tree -/

/-- The entry of a node once the leaves have changed. -/
def Entry.relabel (label : α → β) (entry : Entry α) : Entry β :=
  ⟨entry.index, entry.parent?, entry.node.relabel label⟩

/-- Other leaves change no number, only what the leaves carry. -/
theorem entriesAll_relabelAll (label : α → β) (parent? : Option Nat) (index : Nat)
    (trees : List (Tree α)) :
    entriesAll parent? index (relabelAll label trees) =
      (entriesAll parent? index trees).map (Entry.relabel label) := by
  induction trees using forestInduction generalizing parent? index with
  | nil => rfl
  | leaf a trees ih =>
    rw [relabelAll, entriesAll, ih, size_relabel, relabel, entries, entriesAll, entries,
      List.map_append, List.map_singleton]
    rfl
  | rule name children trees ihchildren ih =>
    rw [relabelAll, entriesAll, ih, size_relabel, relabel, entries, ihchildren, entriesAll, entries,
      List.map_append, List.map_cons]
    rfl

end Tree

namespace Dot

/-! ## The lines -/

variable {α : Type}

/-- A line shows of a leaf only its label. -/
theorem entryLines_relabel (mode : Mode) (label : α → String) (entry : Tree.Entry α) :
    entryLines mode id (entry.relabel label) = entryLines mode label entry := by
  unfold entryLines Tree.Entry.relabel Tree.Node.relabel
  cases entry.node <;> rfl

/-- A drawing shows of the leaves only their labels. -/
theorem lines_relabel (mode : Mode) (label : α → String) (t : Tree α) :
    lines mode id (t.relabel label) = lines mode label t := by
  have hentries := Tree.entriesAll_relabelAll label none 0 [t]
  rw [Tree.relabelAll, Tree.relabelAll, Tree.entriesAll, Tree.entriesAll, Tree.entriesAll,
    Tree.entriesAll, List.append_nil, List.append_nil] at hentries
  rw [lines_eq, lines_eq, hentries, List.flatMap_map]
  congr 2
  exact List.flatMap_congr fun entry _ => entryLines_relabel mode label entry

/-- Where the leaves are labels, what the lines of an entry say is what the entry holds. -/
theorem entryItems_id (entry : Tree.Entry String) :
    entryItems id entry =
      .node entry.index entry.node :: (entry.parent?.map (.edge · entry.index)).toList := by
  unfold entryItems
  cases entry.node <;> rfl

/-- A node below the root has two lines, its own and the one of the edge to it. -/
theorem length_flatMap_entryLines (mode : Mode) (parent index : Nat) (trees : List (Tree α))
    (label : α → String) :
    ((Tree.entriesAll (some parent) index trees).flatMap (entryLines mode label)).length =
      2 * Tree.sizeAll trees := by
  induction trees using Tree.forestInduction generalizing parent index with
  | nil => rfl
  | leaf a trees ih =>
    rw [Tree.entriesAll, Tree.entries, List.singleton_append, List.flatMap_cons,
      List.length_append, ih, Tree.sizeAll, Tree.size]
    simp only [entryLines, edgeLines, List.length_cons, List.length_nil]
    omega
  | rule name children trees ihchildren ih =>
    rw [Tree.entriesAll, Tree.entries, List.cons_append, List.flatMap_cons, List.flatMap_append,
      List.length_append, List.length_append, ihchildren, ih, Tree.sizeAll, Tree.size]
    simp only [entryLines, edgeLines, List.length_cons, List.length_nil]
    omega

/-- The root has one line and every other node two. -/
theorem length_flatMap_entries (mode : Mode) (label : α → String) (t : Tree α) :
    ((t.entries none 0).flatMap (entryLines mode label)).length + 1 = 2 * t.size := by
  cases t with
  | leaf a => rfl
  | rule name children =>
    rw [Tree.entries, List.flatMap_cons, List.length_append, length_flatMap_entryLines, Tree.size]
    simp only [entryLines, edgeLines, List.length_cons, List.length_nil]
    omega

/-- Both modes have four header lines. -/
theorem Mode.length_header (mode : Mode) : mode.header.length = 4 := by
  cases mode <;> rfl

namespace Drawable

/-- As many nodes are shown as there are. -/
theorem count_eq_size_shown (t : Drawable) : t.count = t.shown.size := by
  cases t with
  | cst t => rw [count, Tree.count_eq_size, shown, Tree.size_relabel]
  | ast t => rw [count, Tree.count_eq_size, shown, Tree.size_relabel]

/-- The lines of a drawing are those of the tree that is shown. -/
theorem split_draw_shown (t : Drawable) :
    Text.split '\n' t.draw.toList =
      (t.mode.header ++ (t.shown.entries none 0).flatMap (entryLines t.mode id) ++
        ["\x7d", ""]).map String.toList := by
  have hlines : Text.split '\n' t.draw.toList =
      (lines t.mode id t.shown).map String.toList ++ [[]] := by
    cases t with
    | cst t =>
      rw [draw, drawCst, split_draw, shown, lines_relabel]
      rfl
    | ast t =>
      rw [draw, drawAst, split_draw, shown, lines_relabel]
      rfl
  rw [hlines, lines_eq]
  simp [Mode.footer]

end Drawable

/-- The text of a drawing is cut at its newlines into the four header lines, the lines of the nodes,
the closing line and an empty piece, and the number of the pieces depends on the number of nodes
alone. The nodes come in preorder and are numbered from 0 on. Each has the line that declares it,
with its label and the style of its kind. Right after this line the root has no edge, and every
other node has the edge from its parent, which has a smaller number. All this is what the lines of
a node say when they are read back: its number, its kind and its label, and the numbers that the
edge joins. -/
theorem render_lines (t : Drawable) :
    ∃ (text : String) (entries : List (Tree.Entry String)),
      render t t.mode = .ok text ∧
      Text.split '\n' text.toList =
        (t.mode.header ++ entries.flatMap (entryLines t.mode id) ++ ["\x7d", ""]).map
          String.toList ∧
      t.mode.header.length = 4 ∧ entries.length = t.count ∧
      (Text.split '\n' text.toList).length = 4 + t.count + (t.count - 1) + 2 ∧
      entries.map Tree.Entry.node = t.shown.nodes ∧
      ∀ i entry, entries[i]? = some entry →
        entry.index = i ∧
        (entryLines t.mode id entry).map (readLine t.mode ·.toList) =
          some (.node i entry.node) ::
            (entry.parent?.map fun parent => some (.edge parent i)).toList ∧
        (i = 0 → entry.parent? = none) ∧
        (0 < i → ∃ parent < i, entry.parent? = some parent ∧
          Tree.ChildIn t.shown.subtrees parent i) := by
  have hentries : Tree.entriesAll none 0 [t.shown] = t.shown.entries none 0 := by
    rw [Tree.entriesAll, Tree.entriesAll, List.append_nil]
  have hsize : (t.shown.entries none 0).length = t.shown.size := by
    rw [← hentries, Tree.length_entriesAll, Tree.sizeAll, Tree.sizeAll, Nat.add_zero]
  refine ⟨t.draw, t.shown.entries none 0, if_pos rfl, t.split_draw_shown, t.mode.length_header, ?_,
    ?_, ?_, ?_⟩
  · rw [hsize, t.count_eq_size_shown]
  · have hlines := length_flatMap_entries t.mode id t.shown
    have hpos := t.shown.size_pos
    rw [t.split_draw_shown, t.count_eq_size_shown]
    simp only [List.length_map, List.length_append, t.mode.length_header, List.length_cons,
      List.length_nil]
    omega
  · rw [← hentries, Tree.map_node_entriesAll, Tree.nodesAll_singleton]
  · intro i entry hentry
    rw [← hentries] at hentry
    obtain ⟨hindex, hparent⟩ := Tree.numbered_entriesAll hentry
    rw [Nat.zero_add] at hindex
    refine ⟨hindex, ?_, ?_⟩
    · rw [map_readLine_entryLines, entryItems_id, hindex]
      cases entry.parent? <;> rfl
    rcases hparent with ⟨before, u, after, heq, rfl, hparent⟩ | ⟨parent, hchild, hparent⟩
    · -- there is one tree, so nothing comes before it
      obtain ⟨rfl, -⟩ | ⟨_, rfl, heq⟩ := List.singleton_eq_append_iff.mp heq
      · exact ⟨fun _ => hparent, fun hpos => absurd hpos (Nat.lt_irrefl 0)⟩
    · have hlt := hchild.lt
      rw [Tree.subtreesAll_singleton] at hchild
      rw [Nat.zero_add] at hparent
      exact ⟨fun hzero => by omega, fun _ => ⟨parent, hlt, hparent, hchild⟩⟩

end Dot

end CrateAnalysis
