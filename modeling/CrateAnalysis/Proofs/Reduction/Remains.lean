import CrateAnalysis.Proofs.Tree.Nodes
import CrateAnalysis.Reduction.Basic
import Mathlib.Data.List.ReduceOption

/-!
# What is left of trees

`Remains` says what a reduction leaves of trees that stand side by side, with one rule for each way
in which a node can fare: a leaf vanishes or stays, and a rule gives way to its only survivor,
vanishes, or stays with its survivors. There is exactly one outcome for any trees, and it is the one
of `reduceChildren`. The work with tasks and results comes to the same: whatever results there are,
the tasks of a tree add one in front of them, which says what is left of the tree, if anything.
-/

set_option autoImplicit false

namespace CrateAnalysis

/-- The category by which a reduction treats a rule of a name: the one that is looked up for the
label of the rule, so that the name loses a suffix twice. -/
def CategoryTable.treatment (table : CategoryTable) (name : String) : Option RuleCategory :=
  table.categoryOf (canonicalName name)

variable {table : CategoryTable}

/-- The abstract trees are what is left of the concrete ones, in order. -/
inductive Remains (table : CategoryTable) : List Cst → List Ast → Prop
  | nil : Remains table [] []
  | suppressed {leaf : Leaf} {trees : List Cst} {asts : List Ast} :
      leaf.text ∈ suppressedTexts → Remains table trees asts →
      Remains table (.leaf leaf :: trees) asts
  | leaf {leaf : Leaf} {trees : List Cst} {asts : List Ast} :
      leaf.text ∉ suppressedTexts → Remains table trees asts →
      Remains table (.leaf leaf :: trees) (.leaf leaf.text :: asts)
  | replaced {name : String} {children trees : List Cst} {survivor : Ast} {asts : List Ast} :
      Remains table children [survivor] → table.treatment name = some .wrapper →
      Remains table trees asts →
      Remains table (.rule name children :: trees) (survivor :: asts)
  | vanished {name : String} {children trees : List Cst} {asts : List Ast} :
      Remains table children [] → table.treatment name ≠ some .important →
      Remains table trees asts →
      Remains table (.rule name children :: trees) asts
  | kept {name : String} {children trees : List Cst} {survivors asts : List Ast} :
      Remains table children survivors →
      (table.treatment name = some .wrapper → survivors.length ≠ 1) →
      (survivors = [] → table.treatment name = some .important) →
      Remains table trees asts →
      Remains table (.rule name children :: trees) (.rule (canonicalName name) survivors :: asts)

/-! ## One rule -/

/-- A wrapper with one survivor is replaced by it. -/
theorem reduceRule_replaced {name : String} {survivor : Ast}
    (hwrapper : table.treatment name = some .wrapper) :
    reduceRule table name [survivor] = some survivor := by
  rw [CategoryTable.treatment] at hwrapper
  simp only [reduceRule, hwrapper]

/-- A rule without survivors vanishes, unless it is treated as important. -/
theorem reduceRule_vanished {name : String} (hplain : table.treatment name ≠ some .important) :
    reduceRule table name [] = none := by
  rw [CategoryTable.treatment] at hplain
  rcases hcategory : table.categoryOf (canonicalName name) with _ | (_ | _)
  · simp only [reduceRule, hcategory]
  · simp only [reduceRule, hcategory]
  · exact absurd hcategory hplain

/-- Every other rule is kept, under its canonical name and with the survivors as its children. -/
theorem reduceRule_kept {name : String} {survivors : List Ast}
    (hwrapper : table.treatment name = some .wrapper → survivors.length ≠ 1)
    (himportant : survivors = [] → table.treatment name = some .important) :
    reduceRule table name survivors = some (.rule (canonicalName name) survivors) := by
  rw [CategoryTable.treatment] at hwrapper himportant
  rcases survivors with _ | ⟨first, _ | ⟨second, others⟩⟩
  · simp only [reduceRule, himportant rfl]
  · rcases hcategory : table.categoryOf (canonicalName name) with _ | (_ | _)
    · simp only [reduceRule, hcategory]
    · exact absurd rfl (hwrapper hcategory)
    · simp only [reduceRule, hcategory]
  · rcases hcategory : table.categoryOf (canonicalName name) with _ | (_ | _) <;>
      simp only [reduceRule, hcategory]

/-- A rule fares in one of three ways. -/
theorem Remains.rule {children trees : List Cst} {survivors asts : List Ast}
    (hchildren : Remains table children survivors) (name : String)
    (htrees : Remains table trees asts) :
    Remains table (.rule name children :: trees)
      ((reduceRule table name survivors).toList ++ asts) := by
  by_cases hreplaced : table.treatment name = some .wrapper ∧ survivors.length = 1
  · obtain ⟨hwrapper, hlength⟩ := hreplaced
    obtain ⟨survivor, rfl⟩ := List.length_eq_one_iff.mp hlength
    rw [reduceRule_replaced hwrapper]
    exact .replaced hchildren hwrapper htrees
  · by_cases hvanished : survivors = [] ∧ table.treatment name ≠ some .important
    · obtain ⟨rfl, hplain⟩ := hvanished
      rw [reduceRule_vanished hplain]
      exact .vanished hchildren hplain htrees
    · have hwrapper : table.treatment name = some .wrapper → survivors.length ≠ 1 :=
        not_and.mp hreplaced
      have himportant : survivors = [] → table.treatment name = some .important :=
        fun hnil => not_not.mp (not_and.mp hvanished hnil)
      rw [reduceRule_kept hwrapper himportant]
      exact .kept hchildren hwrapper himportant htrees

/-! ## The recursion on trees -/

/-- The survivors of trees side by side are those of the first and then those of the others. -/
theorem reduceChildren_cons (t : Cst) (trees : List Cst) :
    reduceChildren table (t :: trees) =
      (reduceNode table t).toList ++ reduceChildren table trees := by
  rw [reduceChildren]
  cases reduceNode table t <;> rfl

/-- The survivors are what the trees are reduced to, without those that vanish. -/
theorem reduceChildren_eq_reduceOption (trees : List Cst) :
    reduceChildren table trees = (trees.map (reduceNode table)).reduceOption := by
  induction trees with
  | nil => rfl
  | cons t trees ih =>
    rw [reduceChildren_cons, List.map_cons, ih]
    cases reduceNode table t <;> rfl

/-- What is left of trees are their survivors. -/
theorem remains_reduceChildren (trees : List Cst) :
    Remains table trees (reduceChildren table trees) := by
  induction trees using Tree.forestInduction with
  | nil => exact .nil
  | leaf leaf trees ih =>
    rw [reduceChildren_cons, reduceNode, reduceLeaf]
    by_cases hleaf : leaf.text ∈ suppressedTexts
    · rw [if_pos hleaf]
      exact .suppressed hleaf ih
    · rw [if_neg hleaf]
      exact .leaf hleaf ih
  | rule name children trees ihchildren ih =>
    rw [reduceChildren_cons, reduceNode]
    exact ihchildren.rule name ih

/-- Nothing else is left of them. -/
theorem Remains.eq_reduceChildren {trees : List Cst} {asts : List Ast}
    (h : Remains table trees asts) : asts = reduceChildren table trees := by
  induction h with
  | nil => rfl
  | suppressed hleaf _ ih =>
    rw [reduceChildren_cons, reduceNode, reduceLeaf, if_pos hleaf]
    exact ih
  | leaf hleaf _ ih =>
    rw [reduceChildren_cons, reduceNode, reduceLeaf, if_neg hleaf, ← ih]
    rfl
  | replaced _ hwrapper _ ihchildren ih =>
    rw [reduceChildren_cons, reduceNode, ← ihchildren, reduceRule_replaced hwrapper, ← ih]
    rfl
  | vanished _ hplain _ ihchildren ih =>
    rw [reduceChildren_cons, reduceNode, ← ihchildren, reduceRule_vanished hplain, ← ih]
    rfl
  | kept _ hwrapper himportant _ ihchildren ih =>
    rw [reduceChildren_cons, reduceNode, ← ihchildren, reduceRule_kept hwrapper himportant, ← ih]
    rfl

/-- The relation says of trees what the recursive reduction does. -/
theorem remains_iff {trees : List Cst} {asts : List Ast} :
    Remains table trees asts ↔ asts = reduceChildren table trees := by
  constructor
  · exact Remains.eq_reduceChildren
  · rintro rfl
    exact remains_reduceChildren trees

/-- What is left of one tree is at most one tree. -/
theorem remains_singleton_iff {tree : Cst} {asts : List Ast} :
    Remains table [tree] asts ↔ asts = (reduceNode table tree).toList := by
  rw [remains_iff, reduceChildren_cons, reduceChildren, List.append_nil]

/-! ## The work with tasks -/

/-- Trees are visited in order. -/
theorem visits_cons (t : Cst) (trees : List Cst) :
    ReductionTask.visits (t :: trees) = .visit t :: ReductionTask.visits trees := rfl

/-- When a rule is finished, the results of its children are the latest ones. -/
theorem runReduction_finish (table : CategoryTable) (name : String)
    (lefts results : List (Option Ast)) (tasks : List ReductionTask) :
    runReduction table (lefts.reverse ++ results) (.finish name lefts.length :: tasks) =
      runReduction table (reduceRule table name lefts.reduceOption :: results) tasks := by
  have htake : (lefts.reverse ++ results).take lefts.length = lefts.reverse := by
    rw [← List.length_reverse, List.take_left]
  have hdrop : (lefts.reverse ++ results).drop lefts.length = results := by
    rw [← List.length_reverse, List.drop_left]
  rw [runReduction, htake, hdrop, List.reverse_reverse, List.reduceOption]

/-- The visits of trees leave one result for each of them and come back to the other tasks. -/
theorem runReduction_visits (table : CategoryTable) (trees : List Cst)
    (results : List (Option Ast)) (tasks : List ReductionTask) :
    runReduction table results (ReductionTask.visits trees ++ tasks) =
      runReduction table ((trees.map (reduceNode table)).reverse ++ results) tasks := by
  induction trees using Tree.forestInduction generalizing results tasks with
  | nil => rfl
  | leaf leaf trees ih =>
    rw [visits_cons, List.cons_append, runReduction, ih, List.map_cons, List.reverse_cons,
      List.append_assoc, List.singleton_append, reduceNode]
  | rule name children trees ihchildren ih =>
    have hfinish := runReduction_finish table name (children.map (reduceNode table)) results
      (ReductionTask.visits trees ++ tasks)
    rw [List.length_map, ← reduceChildren_eq_reduceOption] at hfinish
    rw [visits_cons, List.cons_append, runReduction, ihchildren, hfinish, ih, List.map_cons,
      List.reverse_cons, List.append_assoc, List.singleton_append, reduceNode]

/-- The work with tasks yields what the recursion on the tree does. -/
theorem reduce_eq_getD (table : CategoryTable) (tree : Cst) :
    reduce table tree = (reduceNode table tree).getD (.rule emptyRootName []) := by
  have hrun : runReduction table [] [.visit tree] = [reduceNode table tree] := by
    have hvisits := runReduction_visits table [tree] [] []
    rwa [runReduction] at hvisits
  rw [reduce, hrun]
  cases reduceNode table tree <;> rfl

/-- A reduction yields what is left of the tree, or the empty rule if nothing is left of it. -/
theorem reduce_eq_iff (table : CategoryTable) (tree : Cst) (ast : Ast) :
    reduce table tree = ast ↔
      Remains table [tree] [ast] ∨ Remains table [tree] [] ∧ ast = .rule "root" [] := by
  rw [reduce_eq_getD, remains_singleton_iff, remains_singleton_iff]
  cases reduceNode table tree with
  | none => simp [emptyRootName, eq_comm]
  | some left => simp [eq_comm]

end CrateAnalysis
