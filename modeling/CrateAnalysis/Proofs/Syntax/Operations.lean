import CrateAnalysis.Proofs.Grammar.Precedence
import CrateAnalysis.Proofs.Syntax.Parse
import CrateAnalysis.Proofs.Token.Spacing

/-!
# Binary operations in a source text

The lexer writes the spelling of a terminal into the text of its token, so the levels of the
operators in a tree can be told from their texts. From that and from the grouping in derivation
trees follows the main statement: in the tree of a text every binary operation is grouped as the
levels of its operators demand.
-/

set_option autoImplicit false

namespace CrateAnalysis

/-- The leaf of a lexeme that stands alone is spelled as its kind demands. -/
theorem Lexeme.StandsAlone.spelled {lexeme : Lexeme} (h : lexeme.StandsAlone) :
    lexeme.token.leaf.Spelled := by
  intro terminal spelling hkind hspelling
  obtain rfl := Terminal.name_injective (Option.some.inj hkind)
  have htext : lexeme.token.leaf.text = String.ofList lexeme.text := rfl
  rw [htext, h.text_eq hspelling, String.ofList_toList]

/-- Below the root of a flat tree there are only leaves. -/
theorem eq_root_of_mem_flatTree {tokens : List Token} {name : String} {children : List Cst}
    (h : .rule name children ∈ (flatTree tokens).subtrees) : name = rootName := by
  rw [flatTree, Tree.subtrees, List.mem_cons] at h
  rcases h with heq | h
  · exact (Tree.rule.inj heq).1
  · induction tokens with
    | nil => cases h
    | cons token tokens ih =>
      rw [List.map_cons, Tree.subtreesAll, Tree.subtrees, List.singleton_append, List.mem_cons] at h
      exact ih (h.resolve_left (by simp))

/-- The children of every binary operation in the tree of a text are two operands with an operator
between them. Where the left operand passes to another operation, through rules with a single child,
that one binds at least as much as the operator, and more if the operator is a comparison; where the
right operand does, that one binds more. -/
theorem wellGrouped_of_mem_parse (code : String) (children : List Cst)
    (h : .rule "binary_operation" children ∈ (parse code).tree.subtrees) :
    Cst.WellGrouped children := by
  obtain ⟨⟨lexemes, stop⟩, hlex⟩ :
    ∃ stretch, lexStretch .start .start code.toList = stretch := ⟨_, rfl⟩
  have hspelled : ∀ lexeme ∈ lexemes, lexeme.token.leaf.Spelled := by
    intro lexeme hmem
    apply Lexeme.StandsAlone.spelled
    apply @standsAlone_of_mem_lexStretch .start .start code.toList
    rwa [hlex]
  have hname : "binary_operation" ≠ rootName := by decide
  obtain ⟨outcome, hparse⟩ : ∃ outcome, parse code = outcome := ⟨_, rfl⟩
  have hverdict := verdict_parse hlex
  rw [hparse] at hverdict h
  cases hverdict with
  | @accepted others hcrate htrees hleaves =>
    -- the end of input is a leaf, so the operation stands in the derivation tree
    have hmem : .rule "binary_operation" children ∈ Tree.subtreesAll [.rule rootName others] := by
      rw [Tree.subtrees, Tree.subtreesAll_append, List.mem_cons, List.mem_append] at h
      rw [Tree.subtreesAll_singleton, Tree.subtrees, List.mem_cons]
      rcases h with heq | hmem | hmem
      · exact absurd (Tree.rule.inj heq).1 hname
      · exact .inr hmem
      · rw [Tree.subtreesAll_singleton, Tree.subtrees, List.mem_singleton] at hmem
        cases hmem
    obtain ⟨r, hoperation⟩ := htrees.exists_rule_of_mem hmem
    apply hoperation.wellGrouped
    intro leaf hleaf
    have hleaf := Tree.mem_leavesAll_of_subtree hleaf hmem
    rw [Tree.leavesAll, Tree.leaves, Tree.leavesAll, List.append_nil, hleaves] at hleaf
    obtain ⟨lexeme, hlexeme, rfl⟩ := List.mem_map.mp hleaf
    exact hspelled lexeme hlexeme
  | unexpected | strayed | cutShort => exact absurd (eq_root_of_mem_flatTree h) hname

/-- A comparison whose left operand passes to a difference. To the left this difference passes to
another one, to the right to a product. -/
theorem wellGrouped_comparison :
    ∃ comparison difference : List Cst,
      (.rule "binary_operation" comparison ∈
          (parse "const n: t = a - b - c * d < e;").tree.subtrees ∧
        Cst.levels? (.rule "binary_operation" comparison) = some (some 2, [some 7], []) ∧
        Cst.WellGrouped comparison) ∧
      .rule "binary_operation" difference ∈
          (parse "const n: t = a - b - c * d < e;").tree.subtrees ∧
        Cst.levels? (.rule "binary_operation" difference) = some (some 7, [some 7], [some 8]) ∧
        Cst.WellGrouped difference := by
  have hfound : (parse "const n: t = a - b - c * d < e;").tree.subtrees.filterMap Cst.levels? =
      [(some 2, [some 7], []), (some 7, [some 7], [some 8]), (some 7, [], []),
        (some 8, [], [])] := by
    decide +kernel
  have hfirst : (some 2, [some 7], []) ∈
      (parse "const n: t = a - b - c * d < e;").tree.subtrees.filterMap Cst.levels? := by
    rw [hfound]
    exact .head _
  have hsecond : (some 7, [some 7], [some 8]) ∈
      (parse "const n: t = a - b - c * d < e;").tree.subtrees.filterMap Cst.levels? := by
    rw [hfound]
    exact .tail _ (.head _)
  obtain ⟨comparison, hcomparison, hlevels⟩ := Cst.exists_operation_of_mem_levels hfirst
  obtain ⟨difference, hdifference, hlevels'⟩ := Cst.exists_operation_of_mem_levels hsecond
  exact ⟨comparison, difference,
    ⟨hcomparison, hlevels, wellGrouped_of_mem_parse _ comparison hcomparison⟩,
    hdifference, hlevels', wellGrouped_of_mem_parse _ difference hdifference⟩

end CrateAnalysis
