import CrateAnalysis.Tree.Basic

/-!
# The nodes of trees

What is said of a tree is proved of several trees that stand side by side, since the children of a
node do. `forestInduction` is the induction that fits: it goes into the children of the first tree
and on to the trees after it. The nodes of trees are what the preorder lists, without the depths;
their subtrees are listed in the same order.
-/

set_option autoImplicit false

namespace CrateAnalysis

namespace Tree

variable {α β : Type}

/-- What holds of no trees, and carries over from the trees after a leaf, and from the children and
the trees after a rule, holds of all trees. -/
@[elab_as_elim]
theorem forestInduction {motive : List (Tree α) → Prop} (nil : motive [])
    (leaf : ∀ a trees, motive trees → motive (.leaf a :: trees))
    (rule : ∀ name children trees, motive children → motive trees →
      motive (.rule name children :: trees)) :
    ∀ trees, motive trees
  | [] => nil
  | .leaf a :: trees => leaf a trees (forestInduction nil leaf rule trees)
  | .rule name children :: trees =>
    rule name children trees (forestInduction nil leaf rule children)
      (forestInduction nil leaf rule trees)

/-! ## Nodes -/

/-- What the nodes of trees carry, each before its children. -/
def nodesAll (trees : List (Tree α)) : List (Node α) := (preorderAll 0 trees).map (·.2)

/-- What the nodes of a tree carry, each before its children. -/
def nodes (t : Tree α) : List (Node α) := (t.preorder 0).map (·.2)

/-- The depth at which trees stand does not matter to what their nodes carry. -/
theorem map_preorderAll (depth : Nat) (trees : List (Tree α)) :
    (preorderAll depth trees).map (·.2) = nodesAll trees := by
  unfold nodesAll
  -- children lie deeper, so both depths have to be free
  generalize 0 = other
  induction trees using forestInduction generalizing depth other with
  | nil => rfl
  | leaf a trees ih => simp [preorderAll, preorder, ih depth other]
  | rule name children trees ihchildren ih =>
    simp [preorderAll, preorder, ihchildren (depth + 1) (other + 1), ih depth other]

/-- Without trees there are no nodes. -/
@[simp]
theorem nodesAll_nil : nodesAll ([] : List (Tree α)) = [] := rfl

/-- A leaf is a node, before those of the trees after it. -/
@[simp]
theorem nodesAll_leaf (a : α) (trees : List (Tree α)) :
    nodesAll (.leaf a :: trees) = .leaf a :: nodesAll trees := rfl

/-- A rule is a node, before those of its children and of the trees after it. -/
@[simp]
theorem nodesAll_rule (name : String) (children trees : List (Tree α)) :
    nodesAll (.rule name children :: trees) =
      .rule name :: (nodesAll children ++ nodesAll trees) := by
  rw [← map_preorderAll 1 children, nodesAll, nodesAll, preorderAll, preorder, List.map_append,
    List.map_cons, List.cons_append]

/-- The nodes of trees side by side are listed in the order of the trees. -/
theorem nodesAll_cons (t : Tree α) (trees : List (Tree α)) :
    nodesAll (t :: trees) = t.nodes ++ nodesAll trees := by
  rw [nodesAll, preorderAll, List.map_append, nodes, nodesAll]

/-- A single tree has the nodes of the tree. -/
@[simp]
theorem nodesAll_singleton (t : Tree α) : nodesAll [t] = t.nodes := by
  rw [nodesAll, preorderAll, preorderAll, List.append_nil, nodes]

/-- There are as many nodes listed as there are. -/
theorem length_nodesAll (trees : List (Tree α)) : (nodesAll trees).length = sizeAll trees := by
  induction trees using forestInduction with
  | nil => rfl
  | leaf a trees ih =>
    rw [nodesAll_leaf, List.length_cons, ih, sizeAll, size, Nat.add_comm]
  | rule name children trees ihchildren ih =>
    rw [nodesAll_rule, List.length_cons, List.length_append, ihchildren, ih, sizeAll, size]
    omega

/-- Every node is counted. -/
theorem length_nodes (t : Tree α) : t.nodes.length = t.count := by
  rw [← nodesAll_singleton, length_nodesAll, count_eq_size, sizeAll, sizeAll, Nat.add_zero]

/-! ## Subtrees -/

mutual

/-- A tree and the trees below its root, each before those below its own root. -/
def subtrees : Tree α → List (Tree α)
  | leaf a => [leaf a]
  | rule name children => rule name children :: subtreesAll children

/-- The subtrees of several trees. -/
def subtreesAll : List (Tree α) → List (Tree α)
  | [] => []
  | t :: ts => t.subtrees ++ subtreesAll ts

end

/-- A rule without children has no tree below it. -/
theorem mem_subtrees_rule_nil {name : String} {t : Tree α} :
    t ∈ (rule name []).subtrees ↔ t = rule name [] := by
  rw [subtrees, subtreesAll, List.mem_singleton]

/-- A single tree has the subtrees of the tree. -/
@[simp]
theorem subtreesAll_singleton (t : Tree α) : subtreesAll [t] = t.subtrees := by
  rw [subtreesAll, subtreesAll, List.append_nil]

/-- The subtrees of trees side by side are listed in the order of the trees. -/
theorem subtreesAll_append (ts us : List (Tree α)) :
    subtreesAll (ts ++ us) = subtreesAll ts ++ subtreesAll us := by
  induction ts with
  | nil => rfl
  | cons t ts ih => rw [List.cons_append, subtreesAll, ih, subtreesAll, List.append_assoc]

/-- There is one subtree for each node. -/
theorem length_subtreesAll (trees : List (Tree α)) :
    (subtreesAll trees).length = sizeAll trees := by
  induction trees using forestInduction with
  | nil => rfl
  | leaf a trees ih =>
    rw [subtreesAll, subtrees, List.length_append, ih, sizeAll, size, List.length_singleton]
  | rule name children trees ihchildren ih =>
    rw [subtreesAll, subtrees, List.length_append, List.length_cons, ihchildren, ih, sizeAll, size]

/-- A tree is the first of its own subtrees. -/
theorem getElem?_zero_subtreesAll (t : Tree α) (trees : List (Tree α)) :
    (subtreesAll (t :: trees))[0]? = some t := by
  cases t <;> rfl

/-- A tree stands among the subtrees after those of the trees before it. -/
theorem getElem?_subtreesAll (before : List (Tree α)) (t : Tree α) (after : List (Tree α)) :
    (subtreesAll (before ++ t :: after))[sizeAll before]? = some t := by
  rw [subtreesAll_append, ← length_subtreesAll before,
    List.getElem?_append_right (Nat.le_refl _), Nat.sub_self, getElem?_zero_subtreesAll]

/-- Every rule among the nodes is the root of a subtree. -/
theorem exists_subtree_of_mem_nodes {name : String} {trees : List (Tree α)}
    (h : .rule name ∈ nodesAll trees) : ∃ children, rule name children ∈ subtreesAll trees := by
  induction trees using forestInduction with
  | nil => cases h
  | leaf a trees ih =>
    rw [nodesAll_leaf, List.mem_cons] at h
    obtain ⟨children, hmem⟩ := ih (h.resolve_left nofun)
    exact ⟨children, List.mem_append_right _ hmem⟩
  | rule other inner trees ihinner ih =>
    rw [nodesAll_rule, List.mem_cons, List.mem_append] at h
    rcases h with heq | h | h
    · obtain rfl := Node.rule.inj heq
      exact ⟨inner, .head _⟩
    · obtain ⟨children, hmem⟩ := ihinner h
      exact ⟨children, .tail _ (List.mem_append_left _ hmem)⟩
    · obtain ⟨children, hmem⟩ := ih h
      exact ⟨children, .tail _ (List.mem_append_right _ hmem)⟩

/-! ## Leaves -/

/-- The leaves of trees are those of each of them. -/
theorem mem_leavesAll {a : α} {trees : List (Tree α)} :
    a ∈ leavesAll trees ↔ ∃ t ∈ trees, a ∈ t.leaves := by
  induction trees with
  | nil => simp [leavesAll]
  | cons t trees ih => simp [leavesAll, ih]

/-- The leaves of a subtree are among the leaves. -/
theorem mem_leavesAll_of_subtree {t : Tree α} {a : α} (ha : a ∈ t.leaves) {trees : List (Tree α)}
    (ht : t ∈ subtreesAll trees) : a ∈ leavesAll trees := by
  induction trees using forestInduction with
  | nil => cases ht
  | leaf b trees ih =>
    rw [subtreesAll, subtrees, List.singleton_append, List.mem_cons] at ht
    rw [leavesAll, List.mem_append]
    rcases ht with rfl | ht
    · exact .inl ha
    · exact .inr (ih ht)
  | rule name children trees ihchildren ih =>
    rw [subtreesAll, subtrees, List.cons_append, List.mem_cons, List.mem_append] at ht
    rw [leavesAll, List.mem_append]
    rcases ht with rfl | ht | ht
    · exact .inl ha
    · exact .inl (ihchildren ht)
    · exact .inr (ih ht)

/-! ## Other leaves -/

mutual

/-- A tree with the same rules and other leaves. -/
def relabel (label : α → β) : Tree α → Tree β
  | leaf a => leaf (label a)
  | rule name children => rule name (relabelAll label children)

/-- Several trees with the same rules and other leaves. -/
def relabelAll (label : α → β) : List (Tree α) → List (Tree β)
  | [] => []
  | t :: ts => t.relabel label :: relabelAll label ts

end

/-- Trees get other leaves one by one. -/
theorem relabelAll_eq_map (label : α → β) (ts : List (Tree α)) :
    relabelAll label ts = ts.map (relabel label) := by
  induction ts with
  | nil => rfl
  | cons t ts ih => rw [relabelAll, ih, List.map_cons]

/-- What a node carries once the leaves have changed. -/
def Node.relabel (label : α → β) : Node α → Node β
  | leaf a => leaf (label a)
  | rule name => rule name

/-- Other leaves change nothing about how many nodes trees have. -/
theorem sizeAll_relabelAll (label : α → β) (trees : List (Tree α)) :
    sizeAll (relabelAll label trees) = sizeAll trees := by
  induction trees using forestInduction with
  | nil => rfl
  | leaf a trees ih => rw [relabelAll, relabel, sizeAll, sizeAll, ih, size, size]
  | rule name children trees ihchildren ih =>
    rw [relabelAll, relabel, sizeAll, sizeAll, ih, size, size, ihchildren]

/-- Other leaves change nothing about how many nodes a tree has. -/
theorem size_relabel (label : α → β) (t : Tree α) : (t.relabel label).size = t.size := by
  have hsize := sizeAll_relabelAll label [t]
  simpa [relabelAll, sizeAll] using hsize

end Tree

end CrateAnalysis
