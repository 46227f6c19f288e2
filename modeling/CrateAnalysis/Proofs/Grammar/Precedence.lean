import CrateAnalysis.Proofs.Grammar.Crate
import CrateAnalysis.Proofs.Grammar.Expansion
import CrateAnalysis.Proofs.Tree.Nodes

/-!
# Precedence of operators

All binary operations have nodes of one name, so the node alone does not tell how tightly its
operator binds. `operatorLevels` lists the operators from the loosest level to the tightest. A tree
passes to another one when it leads there through rules with a single child, as the levels of
expressions do. `RuleName.floor` bounds from below the levels of the operations to which the trees
of a rule pass: it never falls along a passage, and an operation lies at or above the floor of its
rule and at or below the floors of its operands. That the grammar is so is checked alternative by
alternative. From it follows the main statement, that the operations in a derivation tree are
grouped as the levels demand.
-/

set_option autoImplicit false

namespace CrateAnalysis

/-! ## Operators and operations -/

/-- The operators of binary operations, a level that binds less before one that binds more. -/
def operatorLevels : List (List String) :=
  [["||"], ["&&"], ["==", "!=", "<", ">", "<=", ">="], ["|"], ["^"], ["&"], ["<<", ">>"],
    ["+", "-"], ["*", "/", "%"]]

/-- The level of the comparisons, which do not group among themselves. -/
def comparisonLevel : Nat := 2

/-- The level of the operator that a text is. -/
def operatorLevel? (text : String) : Option Nat := operatorLevels.findIdx? (·.contains text)

namespace Cst

/-- The level of an operator in a tree: an operator is a token, or the node around the token of a
comparison. -/
def operatorLevel? : Cst → Option Nat
  | .leaf leaf => CrateAnalysis.operatorLevel? leaf.text
  | .rule name [.leaf leaf] =>
    if name = "comparison_operator" then CrateAnalysis.operatorLevel? leaf.text else none
  | _ => none

/-- The level of a binary operation, given by its children. -/
def operationLevel? : List Cst → Option Nat
  | [_, operator, _] => operatorLevel? operator
  | _ => none

/-- A tree passes to another one if rules with a single child lead there, or if it is that tree. -/
inductive PassesTo : Cst → Cst → Prop
  | here (t : Cst) : PassesTo t t
  | down {child t : Cst} (name : String) : PassesTo child t → PassesTo (.rule name [child]) t

/-- The children of a binary operation, grouped as the levels demand. There are two operands, which
are no tokens, with an operator between them. Every operation to which the left operand passes
binds at least as much as the operator, and more if the operator is a comparison; every operation to
which the right operand passes binds more. -/
def WellGrouped (children : List Cst) : Prop :=
  ∃ left operator right level, children = [left, operator, right] ∧
    (∀ leaf, left ≠ .leaf leaf) ∧ (∀ leaf, right ≠ .leaf leaf) ∧
    operatorLevel? operator = some level ∧
    (∀ inner, PassesTo left (.rule "binary_operation" inner) →
      ∃ innerLevel, operationLevel? inner = some innerLevel ∧ level ≤ innerLevel ∧
        (level = comparisonLevel → level < innerLevel)) ∧
    ∀ inner, PassesTo right (.rule "binary_operation" inner) →
      ∃ innerLevel, operationLevel? inner = some innerLevel ∧ level < innerLevel

/-- The operations to which a tree passes, each given by its children. -/
def operations : Cst → List (List Cst)
  | .rule name [child] =>
    if name = "binary_operation" then [child] :: operations child else operations child
  | .rule name children => if name = "binary_operation" then [children] else []
  | .leaf _ => []

/-- A rule passes to itself, if it is an operation, and to what its only child passes to. -/
theorem mem_operations_rule {name : String} {children inner : List Cst} :
    inner ∈ operations (.rule name children) ↔
      name = "binary_operation" ∧ inner = children ∨
        ∃ child, children = [child] ∧ inner ∈ operations child := by
  match children with
  | [] => simp [operations]
  | [child] => by_cases h : name = "binary_operation" <;> simp [operations, h]
  | _ :: _ :: _ => simp [operations]

/-- The operations that are listed are just those to which the tree passes. -/
theorem mem_operations_iff {t : Cst} {inner : List Cst} :
    inner ∈ operations t ↔ t.PassesTo (.rule "binary_operation" inner) := by
  constructor
  · suffices hall : ∀ trees : List Cst, ∀ t ∈ trees, inner ∈ operations t →
        t.PassesTo (.rule "binary_operation" inner) from hall [t] t (.head _)
    intro trees
    induction trees using Tree.forestInduction with
    | nil => exact nofun
    | leaf a trees ih =>
      rw [List.forall_mem_cons]
      exact ⟨nofun, ih⟩
    | rule name children trees ihchildren ih =>
      rw [List.forall_mem_cons]
      refine ⟨fun h => ?_, ih⟩
      rcases mem_operations_rule.mp h with ⟨rfl, rfl⟩ | ⟨child, rfl, hinner⟩
      · exact .here _
      · exact .down name (ihchildren child (.head _) hinner)
  · intro h
    generalize htarget : Tree.rule "binary_operation" inner = target at h
    induction h with
    | here =>
      subst htarget
      exact mem_operations_rule.mpr (.inl ⟨rfl, rfl⟩)
    | @down child _ name _ ih => exact mem_operations_rule.mpr (.inr ⟨child, rfl, ih htarget⟩)

/-- The levels that meet in an operation: the one of its operator, and those of the operations to
which its left and its right operand pass. -/
def levels? : Cst → Option (Option Nat × List (Option Nat) × List (Option Nat))
  | .rule name [left, operator, right] =>
    if name = "binary_operation" then
      some (operatorLevel? operator, (operations left).map operationLevel?,
        (operations right).map operationLevel?)
    else none
  | _ => none

/-- Levels meet in operations only. -/
theorem exists_children_of_levels? {t : Cst}
    {levels : Option Nat × List (Option Nat) × List (Option Nat)} (h : t.levels? = some levels) :
    ∃ children, t = .rule "binary_operation" children := by
  unfold levels? at h
  split at h
  next name left operator right =>
    split at h
    next hname => exact ⟨_, by rw [hname]⟩
    next => cases h
  next => cases h

/-- Levels that are found among some trees meet in an operation among them. -/
theorem exists_operation_of_mem_levels {trees : List Cst}
    {levels : Option Nat × List (Option Nat) × List (Option Nat)}
    (h : levels ∈ trees.filterMap levels?) :
    ∃ children, .rule "binary_operation" children ∈ trees ∧
      levels? (.rule "binary_operation" children) = some levels := by
  obtain ⟨t, hmem, hlevels⟩ := List.mem_filterMap.mp h
  obtain ⟨children, rfl⟩ := exists_children_of_levels? hlevels
  exact ⟨children, hmem, hlevels⟩

/-- What is known of the level of every operation to which a tree passes is known of the levels of
the operations that are listed. -/
theorem exists_levels_of_passesTo {t : Cst} {fits : Nat → Prop}
    (h : ∀ inner, PassesTo t (.rule "binary_operation" inner) →
      ∃ level, operationLevel? inner = some level ∧ fits level) :
    ∃ levels : List Nat, (operations t).map operationLevel? = levels.map some ∧
      ∀ level ∈ levels, fits level := by
  simp only [← mem_operations_iff] at h
  generalize operations t = passed at h ⊢
  induction passed with
  | nil => exact ⟨[], rfl, nofun⟩
  | cons inner others ih =>
    obtain ⟨level, hlevel, hfits⟩ := h inner (.head _)
    obtain ⟨levels, hlevels, hall⟩ := ih fun other hother => h other (.tail _ hother)
    refine ⟨level :: levels, ?_, List.forall_mem_cons.mpr ⟨hfits, hall⟩⟩
    rw [List.map_cons, List.map_cons, hlevel, hlevels]

/-- Where an operation is well grouped, the levels that meet in it can be compared: none to the left
is below that of the operator, or equal to that of a comparison, and all to the right are above. -/
theorem WellGrouped.exists_levels {children : List Cst} (h : WellGrouped children) :
    ∃ (level : Nat) (lefts rights : List Nat),
      levels? (.rule "binary_operation" children) =
        some (some level, lefts.map some, rights.map some) ∧
      (∀ inner ∈ lefts, level ≤ inner ∧ (level = comparisonLevel → level < inner)) ∧
      ∀ inner ∈ rights, level < inner := by
  obtain ⟨left, operator, right, level, rfl, -, -, hlevel, hleft, hright⟩ := h
  obtain ⟨lefts, hlefts, hfits⟩ := exists_levels_of_passesTo hleft
  obtain ⟨rights, hrights, hfits'⟩ := exists_levels_of_passesTo hright
  refine ⟨level, lefts, rights, ?_, hfits, hfits'⟩
  rw [levels?, if_pos rfl, hlevel, hlefts, hrights]

end Cst

/-- A leaf of a terminal with one spelling has this spelling, so that its text tells the
operator. -/
def Leaf.Spelled (leaf : Leaf) : Prop :=
  ∀ (t : Terminal) (spelling : String), leaf.kind? = some t.name → t.spelling? = some spelling →
    leaf.text = spelling

/-! ## Levels in the grammar -/

/-- The level of the operations to which the trees of a rule pass is at least this. -/
def RuleName.floor : RuleName → Nat
  | .logicalAndExpression => 1
  | .comparisonExpression => 2
  | .bitwiseOrExpression => 3
  | .bitwiseXorExpression => 4
  | .bitwiseAndExpression => 5
  | .shiftExpression => 6
  | .additiveExpression => 7
  | .multiplicativeExpression => 8
  -- no operation without something around it
  | .castExpression | .unaryExpression | .postfixExpression | .primaryExpression
  | .literalExpression | .pathExpression | .pathSegment | .macroInvocation | .structExpression
  | .groupedExpression | .tupleExpression | .arrayExpression | .blockLikeExpression
  | .blockExpression | .ifExpression | .whileExpression | .loopExpression | .forExpression
  | .matchExpression => 9
  | _ => 0

/-- The level of an operator in the grammar. -/
def Atom.operatorLevel? : Atom → Option Nat
  | .terminal t => t.spelling?.bind CrateAnalysis.operatorLevel?
  | .rule r => if r = .comparisonOperator then some comparisonLevel else none

/-- The text of a leaf has the level of its terminal. -/
theorem Leaf.Spelled.operatorLevel?_text {leaf : Leaf} (h : leaf.Spelled) {t : Terminal}
    (hkind : leaf.kind? = some t.name) {level : Nat}
    (hlevel : (Atom.terminal t).operatorLevel? = some level) :
    operatorLevel? leaf.text = some level := by
  obtain ⟨spelling, hspelling, hlevel⟩ := Option.bind_eq_some_iff.mp hlevel
  rwa [h t spelling hkind hspelling]

/-- The parts of an alternative of three symbols, of which the outer two are rules. -/
structure Operands where
  left : RuleName
  operator : Atom
  right : RuleName

namespace Operands

/-- The three parts of an alternative. -/
def atoms (operands : Operands) : List Atom :=
  [.rule operands.left, operands.operator, .rule operands.right]

/-- The parts of some symbols, if they are three and the outer two are rules. -/
def ofSymbols? : List (Symbol Terminal Nonterminal) → Option Operands
  | [.nonterminal (.rule left), .terminal t, .nonterminal (.rule right)] =>
    some ⟨left, .terminal t, right⟩
  | [.nonterminal (.rule left), .nonterminal (.rule r), .nonterminal (.rule right)] =>
    some ⟨left, .rule r, right⟩
  | _ => none

/-- The parts of some symbols are these symbols. -/
theorem symbols_of_ofSymbols? {symbols : List (Symbol Terminal Nonterminal)}
    {operands : Operands} (h : ofSymbols? symbols = some operands) :
    symbols = operands.atoms.map Atom.symbol := by
  unfold ofSymbols? at h
  split at h
  · obtain rfl := Option.some.inj h
    rfl
  · obtain rfl := Option.some.inj h
    rfl
  · cases h

end Operands

/-- The rule that is all there is in some symbols, once or repeated. -/
def soleRule? : List (Symbol Terminal Nonterminal) → Option RuleName
  | [.nonterminal (.rule r)] => some r
  | [.nonterminal (.many [.rule r])] => some r
  | _ => none

/-- The floor does not fall where an alternative is a single rule. -/
theorem floor_le_of_soleRule? :
    ∀ r ∈ RuleName.all, ∀ choice ∈ choices r, ∀ symbols ∈ choice.body.sequences,
      ∀ s ∈ soleRule? symbols, r.floor ≤ s.floor := by
  decide +kernel

/-- The alternatives of the binary operations: the operator is not below the floor of the rule, not
above the floor of the left operand, and below that of the right operand. A comparison is below
that of the left operand too. -/
theorem operands_of_operation :
    ∀ r ∈ RuleName.all, ∀ choice ∈ choices r, choice.nodeName r = "binary_operation" →
      ∀ symbols ∈ choice.body.sequences, ∃ operands ∈ Operands.ofSymbols? symbols,
        ∃ level ∈ operands.operator.operatorLevel?, r.floor ≤ level ∧
          level ≤ operands.left.floor ∧
          (level = comparisonLevel → level < operands.left.floor) ∧
          level < operands.right.floor := by
  decide +kernel

/-! ## Alternatives of a single rule -/

/-- The grammar repeats nothing that is empty. -/
theorem repetitions_ne_nil : ∀ unit ∈ repetitions, unit ≠ [] := by
  decide +kernel

/-- What is repeated in an alternative of a rule is not empty. -/
theorem ne_nil_of_many_mem {r : RuleName} {choice : Choice} (hchoice : choice ∈ choices r)
    {symbols : List (Symbol Terminal Nonterminal)} (hsymbols : symbols ∈ choice.body.sequences)
    {unit : List Atom} (hunit : .nonterminal (.many unit) ∈ symbols) : unit ≠ [] :=
  repetitions_ne_nil unit
    (mem_repetitions_of_choice hchoice (Body.mem_repetitions hsymbols hunit))

namespace Expands

/-- Only no symbols are written out to nothing. -/
theorem eq_nil {symbols : List (Symbol Terminal Nonterminal)}
    (hunits : ∀ unit, .nonterminal (.many unit) ∈ symbols → unit ≠ []) (h : Expands symbols []) :
    symbols = [] := by
  generalize hatoms : ([] : List Atom) = atoms at h
  cases h with
  | nil => rfl
  | terminal | rule => cases hatoms
  | @many unit n =>
    have hcopies := (List.append_eq_nil_iff.mp hatoms.symm).1
    rw [List.replicate_succ, List.flatten_cons, List.append_eq_nil_iff] at hcopies
    exact absurd hcopies.1 (hunits unit (.head _))

/-- Symbols that are written out to one rule are that rule, or a repetition of it alone. -/
theorem soleRule?_eq {symbols : List (Symbol Terminal Nonterminal)} {r : RuleName}
    (hunits : ∀ unit, .nonterminal (.many unit) ∈ symbols → unit ≠ [])
    (h : Expands symbols [.rule r]) : soleRule? symbols = some r := by
  generalize hatoms : [Atom.rule r] = atoms at h
  cases h with
  | nil | terminal => cases hatoms
  | rule h =>
    obtain ⟨heq, rfl⟩ := List.cons.inj hatoms
    obtain rfl := Atom.rule.inj heq
    rw [h.eq_nil fun unit hunit => hunits unit (.tail _ hunit)]
    rfl
  | @many unit n symbols atoms h =>
    rw [List.replicate_succ, List.flatten_cons, List.append_assoc] at hatoms
    cases unit with
    | nil => exact absurd rfl (hunits [] (.head _))
    | cons atom unit =>
      obtain ⟨rfl, hrest⟩ := List.cons.inj hatoms
      obtain ⟨rfl, hrest⟩ := List.append_eq_nil_iff.mp hrest.symm
      obtain ⟨-, rfl⟩ := List.append_eq_nil_iff.mp hrest
      rw [h.eq_nil fun unit hunit => hunits unit (.tail _ hunit)]
      rfl

end Expands

/-! ## Derivation trees of single rules -/

namespace DerivationTrees

/-- A tree of a rule is a node that carries one of the choices of the rule. -/
theorem exists_choice {r : RuleName} {t : Cst} (h : DerivationTrees [.rule r] [t]) :
    ∃ choice ∈ choices r, ∃ inner children, choice.body.Matches inner ∧
      DerivationTrees inner children ∧ t = .rule (choice.nodeName r) children := by
  cases h with
  | rule hchoice hmatches hinner hrest =>
    cases hrest
    exact ⟨_, hchoice, _, _, hmatches, hinner, rfl⟩

/-- A tree of a rule is no token. -/
theorem ne_leaf {r : RuleName} {t : Cst} (h : DerivationTrees [.rule r] [t]) (leaf : Leaf) :
    t ≠ .leaf leaf := by
  rintro rfl
  obtain ⟨_, -, _, _, -, -, heq⟩ := h.exists_choice
  cases heq

/-- The first tree is one of the first atom. -/
theorem exists_first {atom : Atom} {atoms : List Atom} {trees : List Cst}
    (h : DerivationTrees (atom :: atoms) trees) :
    ∃ t others, trees = t :: others ∧ DerivationTrees [atom] [t] ∧
      DerivationTrees atoms others := by
  cases h with
  | terminal hkind hrest => exact ⟨_, _, rfl, .terminal hkind .nil, hrest⟩
  | rule hchoice hmatches hinner hrest =>
    exact ⟨_, _, rfl, .rule hchoice hmatches hinner .nil, hrest⟩

/-- Every node in derivation trees is a tree of some rule. -/
theorem exists_rule_of_mem {atoms : List Atom} {trees : List Cst} (h : DerivationTrees atoms trees)
    {name : String} {children : List Cst} (hmem : .rule name children ∈ Tree.subtreesAll trees) :
    ∃ r, DerivationTrees [.rule r] [.rule name children] := by
  induction h with
  | nil => cases hmem
  | terminal _ _ ih =>
    rw [Tree.subtreesAll, Tree.subtrees, List.singleton_append, List.mem_cons] at hmem
    rcases hmem with heq | hmem
    · cases heq
    · exact ih hmem
  | @rule r choice _ _ _ _ hchoice hmatches hinner _ ihinner ih =>
    rw [Tree.subtreesAll, Tree.subtrees, List.cons_append, List.mem_cons, List.mem_append] at hmem
    rcases hmem with heq | hmem | hmem
    · rw [heq]
      exact ⟨r, .rule hchoice hmatches hinner .nil⟩
    · exact ihinner hmem
    · exact ih hmem

/-- The floor does not fall from a rule to the only child of its node. -/
theorem floor_le_of_only {r : RuleName} {name : String} {child : Cst}
    (h : DerivationTrees [.rule r] [.rule name [child]]) :
    (∃ leaf, child = .leaf leaf) ∨ ∃ s, DerivationTrees [.rule s] [child] ∧ r.floor ≤ s.floor := by
  obtain ⟨choice, hchoice, inner, children, hmatches, hinner, heq⟩ := h.exists_choice
  obtain ⟨-, rfl⟩ := Tree.rule.inj heq
  cases hinner with
  | terminal => exact .inl ⟨_, rfl⟩
  | @rule s _ _ _ _ _ hchoice' hmatches' hinner' hrest =>
    cases hrest
    obtain ⟨symbols, hsymbols, hexpands⟩ := hmatches.exists_expands
    have hsole := hexpands.soleRule?_eq fun _ => ne_nil_of_many_mem hchoice hsymbols
    exact .inr ⟨s, .rule hchoice' hmatches' hinner' .nil,
      floor_le_of_soleRule? r r.mem_all choice hchoice symbols hsymbols s hsole⟩

/-! ## Operations -/

/-- A comparison operator is a node around one token, whose text is a comparison. -/
theorem operatorLevel?_of_comparison {t : Cst}
    (h : DerivationTrees [.rule .comparisonOperator] [t])
    (hspelled : ∀ leaf ∈ t.leaves, leaf.Spelled) :
    t.operatorLevel? = some comparisonLevel := by
  obtain ⟨choice, hchoice, inner, children, hmatches, hinner, rfl⟩ := h.exists_choice
  obtain ⟨terminal, hterminal, rfl⟩ := List.mem_map.mp hchoice
  have hlevels : ∀ t ∈ [Terminal.equalEqual, .notEqual, .less, .greater, .lessEqual,
      .greaterEqual], (Atom.terminal t).operatorLevel? = some comparisonLevel := by decide +kernel
  cases hmatches with
  | next hfirst hrest =>
    cases hfirst
    cases hrest
    cases hinner with
    | terminal hkind hrest =>
      cases hrest
      exact (hspelled _ (.head _)).operatorLevel?_text hkind (hlevels terminal hterminal)

/-- The operator of an operation has the level in the tree that it has in the grammar. -/
theorem operatorLevel?_eq {atom : Atom} {t : Cst} {level : Nat} (h : DerivationTrees [atom] [t])
    (hlevel : atom.operatorLevel? = some level) (hspelled : ∀ leaf ∈ t.leaves, leaf.Spelled) :
    t.operatorLevel? = some level := by
  cases atom with
  | terminal terminal =>
    cases h with
    | terminal hkind hrest => exact (hspelled _ (.head _)).operatorLevel?_text hkind hlevel
  | rule r =>
    rw [Atom.operatorLevel?] at hlevel
    split at hlevel
    next hcomparison =>
      subst hcomparison
      obtain rfl := Option.some.inj hlevel
      exact h.operatorLevel?_of_comparison hspelled
    next => cases hlevel

/-- The children of an operation are trees of two rules with an operator between them, and the level
of the operator lies between the floors as the grammar has it. -/
theorem exists_operands {r : RuleName} {children : List Cst}
    (h : DerivationTrees [.rule r] [.rule "binary_operation" children])
    (hspelled : ∀ leaf ∈ Tree.leavesAll children, leaf.Spelled) :
    ∃ left operator right level first second, children = [left, operator, right] ∧
      operator.operatorLevel? = some level ∧ r.floor ≤ level ∧
      DerivationTrees [.rule first] [left] ∧ level ≤ first.floor ∧
      (level = comparisonLevel → level < first.floor) ∧
      DerivationTrees [.rule second] [right] ∧ level < second.floor := by
  obtain ⟨choice, hchoice, inner, children, hmatches, hinner, heq⟩ := h.exists_choice
  obtain ⟨hname, rfl⟩ := Tree.rule.inj heq
  obtain ⟨symbols, hsymbols, hexpands⟩ := hmatches.exists_expands
  obtain ⟨operands, hoperands, level, hlevel, hfloor, hleft, hcomparison, hright⟩ :=
    operands_of_operation r r.mem_all choice hchoice hname.symm symbols hsymbols
  rw [Operands.symbols_of_ofSymbols? hoperands] at hexpands
  obtain rfl := hexpands.eq_of_symbols
  obtain ⟨left, _, rfl, hleftTree, hrest⟩ := hinner.exists_first
  obtain ⟨operator, _, rfl, hoperatorTree, hrest⟩ := hrest.exists_first
  obtain ⟨right, _, rfl, hrightTree, hrest⟩ := hrest.exists_first
  cases hrest
  have hoperator : operator.operatorLevel? = some level :=
    hoperatorTree.operatorLevel?_eq hlevel fun leaf hleaf =>
      hspelled leaf (Tree.mem_leavesAll.mpr ⟨operator, .tail _ (.head _), hleaf⟩)
  exact ⟨left, operator, right, level, operands.left, operands.right, rfl, hoperator, hfloor,
    hleftTree, hleft, hcomparison, hrightTree, hright⟩

/-- The floor of a rule bounds the operations to which its trees pass. -/
theorem floor_le_of_passesTo {r : RuleName} {t : Cst} {children : List Cst}
    (h : DerivationTrees [.rule r] [t])
    (hpasses : t.PassesTo (.rule "binary_operation" children))
    (hspelled : ∀ leaf ∈ t.leaves, leaf.Spelled) :
    ∃ level, Cst.operationLevel? children = some level ∧ r.floor ≤ level := by
  generalize htarget : Tree.rule "binary_operation" children = target at hpasses
  induction hpasses generalizing r with
  | here =>
    subst htarget
    obtain ⟨left, operator, right, level, _, _, rfl, hlevel, hfloor, -⟩ :=
      h.exists_operands hspelled
    exact ⟨level, hlevel, hfloor⟩
  | down name hinner ih =>
    rw [Tree.leaves, Tree.leavesAll, Tree.leavesAll, List.append_nil] at hspelled
    rcases h.floor_le_of_only with ⟨leaf, rfl⟩ | ⟨s, hchild, hfloor⟩
    · -- a token passes to nothing but itself
      cases hinner
      cases htarget
    · obtain ⟨level, hlevel, hle⟩ := ih hchild hspelled htarget
      exact ⟨level, hlevel, Nat.le_trans hfloor hle⟩

/-- The operations in derivation trees are grouped as the levels demand. -/
theorem wellGrouped {r : RuleName} {children : List Cst}
    (h : DerivationTrees [.rule r] [.rule "binary_operation" children])
    (hspelled : ∀ leaf ∈ Tree.leavesAll children, leaf.Spelled) : Cst.WellGrouped children := by
  obtain ⟨left, operator, right, level, first, second, rfl, hlevel, -, hfirst, hleft, hcomparison,
    hsecond, hright⟩ := h.exists_operands hspelled
  have hspelledIn : ∀ t ∈ [left, operator, right], ∀ leaf ∈ t.leaves, leaf.Spelled :=
    fun t ht leaf hleaf => hspelled leaf (Tree.mem_leavesAll.mpr ⟨t, ht, hleaf⟩)
  refine ⟨left, operator, right, level, rfl, hfirst.ne_leaf, hsecond.ne_leaf, hlevel, ?_, ?_⟩
  · intro inner hpasses
    obtain ⟨innerLevel, hinner, hfloor⟩ :=
      hfirst.floor_le_of_passesTo hpasses (hspelledIn left (.head _))
    exact ⟨innerLevel, hinner, Nat.le_trans hleft hfloor,
      fun h => Nat.lt_of_lt_of_le (hcomparison h) hfloor⟩
  · intro inner hpasses
    obtain ⟨innerLevel, hinner, hfloor⟩ :=
      hsecond.floor_le_of_passesTo hpasses (hspelledIn right (.tail _ (.tail _ (.head _))))
    exact ⟨innerLevel, hinner, Nat.lt_of_lt_of_le hright hfloor⟩

end DerivationTrees

end CrateAnalysis
