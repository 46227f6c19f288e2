import CrateAnalysis.Proofs.Reduction.Remains

/-!
# The normal form of abstract trees

A reduction leaves no work for another one: in an abstract tree no leaf is a bracket or a separator,
no wrapper has a single child, and a rule without children is important. The label of a node has the
category by which the rule was treated, so this can be told from the abstract tree alone, at every
depth. The one exception is the empty rule that stands for a tree of which nothing is left.
-/

set_option autoImplicit false

namespace CrateAnalysis

variable {table : CategoryTable}

/-- A reduction would leave a node as it is, once it has left the nodes below it as they are. -/
def NormalNode (table : CategoryTable) : Ast → Prop
  | .leaf label => label ∉ suppressedTexts
  | .rule label children =>
    (table.categoryOf label = some .wrapper → children.length ≠ 1) ∧
      (children = [] → table.categoryOf label = some .important)

/-- What is left of trees has only normal nodes. -/
theorem Remains.normalNode {trees : List Cst} {asts : List Ast} (h : Remains table trees asts) :
    ∀ t ∈ Tree.subtreesAll asts, NormalNode table t := by
  induction h with
  | nil => exact fun t ht => absurd ht List.not_mem_nil
  | suppressed _ _ ih => exact ih
  | leaf hleaf _ ih =>
    rw [Tree.subtreesAll, Tree.subtrees, List.singleton_append, List.forall_mem_cons]
    exact ⟨hleaf, ih⟩
  | replaced _ _ _ ihchildren ih =>
    rw [Tree.subtreesAll_singleton] at ihchildren
    rw [Tree.subtreesAll, List.forall_mem_append]
    exact ⟨ihchildren, ih⟩
  | vanished _ _ _ _ ih => exact ih
  | kept _ hwrapper himportant _ ihchildren ih =>
    rw [Tree.subtreesAll, Tree.subtrees, List.forall_mem_append, List.forall_mem_cons]
    exact ⟨⟨⟨hwrapper, himportant⟩, ihchildren⟩, ih⟩

/-- Every node of an abstract tree is normal, unless the tree stands for nothing. -/
theorem normalNode_reduce (table : CategoryTable) (tree : Cst) :
    (∀ t ∈ (reduce table tree).subtrees, NormalNode table t) ∨
      reduce table tree = .rule "root" [] := by
  rcases (reduce_eq_iff table tree _).mp rfl with hremains | ⟨-, hroot⟩
  · left
    rw [← Tree.subtreesAll_singleton]
    exact hremains.normalNode
  · exact .inr hroot

/-- No name of a wrapper ends in the suffix. -/
theorem canonicalName_of_standard {name : String}
    (h : CategoryTable.standard name = some .wrapper) : canonicalName name = name := by
  have hlisted : name ∈ CategoryTable.wrapperRules := by
    by_contra hnot
    simp [CategoryTable.standard, hnot] at h
  have hplain : ∀ rule ∈ CategoryTable.wrapperRules, canonicalName rule = rule := by
    decide +kernel
  exact hplain name hlisted

/-- With the categories of a crate, a normal wrapper has at least two children: it cannot have one,
and it could be without children only if it were important. -/
theorem NormalNode.two_le_length {label : String} {children : List Ast}
    (h : NormalNode .standard (.rule label children))
    (hwrapper : CategoryTable.standard label = some .wrapper) : 2 ≤ children.length := by
  have hcategory : CategoryTable.standard.categoryOf label = some .wrapper := by
    rw [CategoryTable.categoryOf, canonicalName_of_standard hwrapper, hwrapper]
  obtain ⟨hone, hnone⟩ := h
  have hne : children ≠ [] := by
    intro hnil
    cases hcategory.symm.trans (hnone hnil)
  have hpos := List.length_pos_iff.mpr hne
  have hone := hone hcategory
  omega

/-- In an abstract tree no leaf is a bracket or a separator, no rule whose label has the category
of a wrapper has exactly one child, and every rule without children has an important label, unless
the whole tree is the empty rule. With the categories of a crate, a wrapper has at least two
children. -/
theorem reduce_isNormal (table : CategoryTable) (tree : Cst) :
    let ast := reduce table tree
    (∀ label, .leaf label ∈ ast.subtrees → label ∉ suppressedTexts) ∧
    (∀ label children, .rule label children ∈ ast.subtrees →
      table.categoryOf label = some .wrapper → children.length ≠ 1) ∧
    (∀ label, .rule label [] ∈ ast.subtrees →
      table.categoryOf label = some .important ∨ ast = .rule "root" []) ∧
    ∀ label children, .rule label children ∈ (reduce .standard tree).subtrees →
      CategoryTable.standard label = some .wrapper → 2 ≤ children.length := by
  intro ast
  refine ⟨?_, ?_, ?_, ?_⟩
  · intro label hmem
    rcases normalNode_reduce table tree with hnormal | hast
    · exact hnormal _ hmem
    · rw [show ast = .rule "root" [] from hast, Tree.mem_subtrees_rule_nil] at hmem
      cases hmem
  · intro label children hmem hwrapper
    rcases normalNode_reduce table tree with hnormal | hast
    · exact (hnormal _ hmem).1 hwrapper
    · rw [show ast = .rule "root" [] from hast, Tree.mem_subtrees_rule_nil] at hmem
      cases hmem
      exact Nat.zero_ne_one
  · intro label hmem
    rcases normalNode_reduce table tree with hnormal | hast
    · exact .inl ((hnormal _ hmem).2 rfl)
    · exact .inr hast
  · intro label children hmem hwrapper
    rcases normalNode_reduce .standard tree with hnormal | hast
    · exact (hnormal _ hmem).two_le_length hwrapper
    · rw [hast, Tree.mem_subtrees_rule_nil] at hmem
      cases hmem
      -- the empty rule is no wrapper
      have hplain : CategoryTable.standard "root" ≠ some .wrapper := by decide +kernel
      exact absurd hwrapper hplain

end CrateAnalysis
