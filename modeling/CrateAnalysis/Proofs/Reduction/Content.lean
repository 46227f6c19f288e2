import CrateAnalysis.Proofs.Reduction.Remains

/-!
# What a reduction keeps

The content of a concrete tree are its leaves that are no brackets or separators and its important
rules, in preorder. A reduction keeps the content and its order, and adds nothing: whatever stands
in the abstract tree stood in the concrete one, in the same order. If there is no content, the
outcome is the empty rule.
-/

set_option autoImplicit false

namespace CrateAnalysis

variable {table : CategoryTable}

/-- A node of a concrete tree as it would stand in an abstract one. -/
def Tree.Node.abstracted : Node Leaf → Node String
  | leaf token => .leaf token.text
  | rule name => .rule (canonicalName name)

namespace Cst

/-- Whether a node of a concrete tree belongs to the content: a leaf unless it is a bracket or a
separator, a rule if it is treated as an important one. -/
def inContent (table : CategoryTable) : Tree.Node Leaf → Bool
  | .leaf leaf => leaf.text ∉ suppressedTexts
  | .rule name => table.treatment name = some .important

/-- The content of concrete trees, in preorder, as it would stand in abstract trees. -/
def content (table : CategoryTable) (trees : List Cst) : List (Tree.Node String) :=
  ((Tree.nodesAll trees).filter (inContent table)).map Tree.Node.abstracted

end Cst

namespace Ast

/-- Whether a node of an abstract tree belongs to the content: every leaf, and a rule if its label
has the important category. -/
def inContent (table : CategoryTable) : Tree.Node String → Bool
  | .leaf _ => true
  | .rule label => table.categoryOf label = some .important

/-- The content of abstract trees, in preorder. -/
def content (table : CategoryTable) (asts : List Ast) : List (Tree.Node String) :=
  (Tree.nodesAll asts).filter (inContent table)

end Ast

/-! ## Content of several trees -/

/-- The content begins with the leaf, unless this is a bracket or a separator. -/
theorem Cst.content_leaf (leaf : Leaf) (trees : List Cst) :
    content table (.leaf leaf :: trees) =
      if leaf.text ∈ suppressedTexts then content table trees
      else .leaf leaf.text :: content table trees := by
  by_cases h : leaf.text ∈ suppressedTexts <;>
    simp [content, inContent, Tree.Node.abstracted, h]

/-- The content begins with the rule, if it is treated as important, and goes on with that of the
children. -/
theorem Cst.content_rule (name : String) (children trees : List Cst) :
    content table (.rule name children :: trees) =
      if table.treatment name = some .important then
        .rule (canonicalName name) :: (content table children ++ content table trees)
      else content table children ++ content table trees := by
  by_cases h : table.treatment name = some .important <;>
    simp [content, inContent, Tree.Node.abstracted, h]

/-- Every leaf of an abstract tree belongs to the content. -/
theorem Ast.content_leaf (label : String) (asts : List Ast) :
    content table (.leaf label :: asts) = .leaf label :: content table asts := by
  rw [content, Tree.nodesAll_leaf, List.filter_cons_of_pos rfl, content]

/-- A rule of an abstract tree belongs to the content if its label has the important category. -/
theorem Ast.content_rule (label : String) (children asts : List Ast) :
    content table (.rule label children :: asts) =
      if table.categoryOf label = some .important then
        .rule label :: (content table children ++ content table asts)
      else content table children ++ content table asts := by
  by_cases h : table.categoryOf label = some .important <;> simp [content, inContent, h]

/-- The content of trees side by side is in the order of the trees. -/
theorem Ast.content_cons (ast : Ast) (asts : List Ast) :
    content table (ast :: asts) = content table [ast] ++ content table asts := by
  rw [content, Tree.nodesAll_cons, List.filter_append, content, Tree.nodesAll_singleton, content]

/-! ## What is left keeps the content -/

/-- A wrapper is not important. -/
theorem CategoryTable.not_important_of_wrapper {name : String}
    (h : table.treatment name = some .wrapper) : table.treatment name ≠ some .important := by
  rw [h]
  decide

/-- What is left of trees has the same content. -/
theorem Remains.content_eq {trees : List Cst} {asts : List Ast} (h : Remains table trees asts) :
    Ast.content table asts = Cst.content table trees := by
  induction h with
  | nil => rfl
  | suppressed hleaf _ ih => rw [Cst.content_leaf, if_pos hleaf, ih]
  | leaf hleaf _ ih => rw [Cst.content_leaf, if_neg hleaf, Ast.content_leaf, ih]
  | replaced _ hwrapper _ ihchildren ih =>
    rw [Cst.content_rule, if_neg (CategoryTable.not_important_of_wrapper hwrapper),
      Ast.content_cons, ihchildren, ih]
  | vanished _ hplain _ ihchildren ih =>
    rw [Cst.content_rule, if_neg hplain, ← ihchildren, ih]
    rfl
  | kept _ _ _ _ ihchildren ih =>
    -- the label has the category by which the rule was treated
    rw [Cst.content_rule, Ast.content_rule, ihchildren, ih]
    rfl

/-- Trees without content vanish. -/
theorem Remains.eq_nil {trees : List Cst} {asts : List Ast} (h : Remains table trees asts)
    (hcontent : Cst.content table trees = []) : asts = [] := by
  induction h with
  | nil => rfl
  | suppressed hleaf _ ih =>
    rw [Cst.content_leaf, if_pos hleaf] at hcontent
    exact ih hcontent
  | leaf hleaf _ ih =>
    rw [Cst.content_leaf, if_neg hleaf] at hcontent
    cases hcontent
  | replaced _ hwrapper _ ihchildren ih =>
    rw [Cst.content_rule, if_neg (CategoryTable.not_important_of_wrapper hwrapper),
      List.append_eq_nil_iff] at hcontent
    cases ihchildren hcontent.1
  | vanished _ hplain _ ihchildren ih =>
    rw [Cst.content_rule, if_neg hplain, List.append_eq_nil_iff] at hcontent
    exact ih hcontent.2
  | kept _ _ himportant _ ihchildren ih =>
    rw [Cst.content_rule] at hcontent
    split at hcontent
    next => cases hcontent
    next hplain =>
      have hsurvivors := ihchildren (List.append_eq_nil_iff.mp hcontent).1
      exact absurd (himportant hsurvivors) hplain

/-- What is left has no node that was not there before, and keeps the order. -/
theorem Remains.nodesAll_sublist {trees : List Cst} {asts : List Ast}
    (h : Remains table trees asts) :
    (Tree.nodesAll asts).Sublist ((Tree.nodesAll trees).map Tree.Node.abstracted) := by
  induction h with
  | nil => exact List.Sublist.refl _
  | suppressed _ _ ih =>
    rw [Tree.nodesAll_leaf, List.map_cons]
    exact ih.cons _
  | leaf _ _ ih =>
    rw [Tree.nodesAll_leaf, Tree.nodesAll_leaf, List.map_cons]
    exact ih.cons_cons _
  | replaced _ _ _ ihchildren ih =>
    rw [Tree.nodesAll_singleton] at ihchildren
    rw [Tree.nodesAll_rule, List.map_cons, List.map_append, Tree.nodesAll_cons]
    exact (ihchildren.append ih).cons _
  | vanished _ _ _ _ ih =>
    rw [Tree.nodesAll_rule, List.map_cons, List.map_append]
    exact (ih.trans (List.sublist_append_right _ _)).cons _
  | kept _ _ _ _ ihchildren ih =>
    rw [Tree.nodesAll_rule, Tree.nodesAll_rule, List.map_cons, List.map_append]
    exact (ihchildren.append ih).cons_cons _

/-- A reduction keeps the content. A tree without content becomes the empty rule. Any other tree has
the same content before and after, in the same order and as often, and the nodes that are left are
some of the nodes that were there, in the same order. So there are never more nodes after than
before. -/
theorem reduce_keeps_content (table : CategoryTable) (tree : Cst) :
    let ast := reduce table tree
    (Cst.content table [tree] = [] → ast = .rule "root" []) ∧
    (Cst.content table [tree] ≠ [] →
      Ast.content table [ast] = Cst.content table [tree] ∧
      ast.nodes.Sublist (tree.nodes.map Tree.Node.abstracted)) ∧
    ast.count ≤ tree.count := by
  intro ast
  rcases (reduce_eq_iff table tree _).mp rfl with hremains | ⟨hremains, hroot⟩
  · have hsublist := hremains.nodesAll_sublist
    rw [Tree.nodesAll_singleton, Tree.nodesAll_singleton] at hsublist
    refine ⟨fun hnil => ?_, fun _ => ⟨hremains.content_eq, hsublist⟩, ?_⟩
    · cases hremains.eq_nil hnil
    · have hlength := hsublist.length_le
      rwa [List.length_map, Tree.length_nodes, Tree.length_nodes] at hlength
  · refine ⟨fun _ => hroot, fun hne => ?_, ?_⟩
    · exact absurd hremains.content_eq.symm hne
    · have hsize : ast.size = 1 := congrArg Tree.size hroot
      rw [Tree.count_eq_size, Tree.count_eq_size, hsize]
      exact tree.size_pos

end CrateAnalysis
