import CrateAnalysis.Reduction.Category
import CrateAnalysis.Tree.Basic

/-!
# Reduction of concrete trees

A reduction makes an abstract tree of a concrete one. Brackets and separators vanish, and so
does a rule with nothing left below it, unless it is important. A wrapper with one child left
gives way to that child. Any other rule keeps its canonical name and what is left of its
children. If nothing is left at all, the outcome is an empty rule, so that a reduction always
yields a tree.

`reduceNode` says this by recursion on the tree. `reduce` works with a list of tasks and a
list of finished results instead, so that the depth of a tree does not matter.
-/

set_option autoImplicit false

namespace CrateAnalysis

/-- The texts of the tokens that vanish. -/
def suppressedTexts : List String :=
  ["(", ")", "\x7b", "\x7d", "[", "]", ";", ","]

/-- The name of the tree that is left when everything vanishes. -/
def emptyRootName : String := "root"

/-- What is left of a leaf. -/
def reduceLeaf (leaf : Leaf) : Option Ast :=
  if leaf.text ∈ suppressedTexts then none else some (.leaf leaf.text)

/-- What is left of a rule whose children left `survivors`. -/
def reduceRule (table : CategoryTable) (rawName : String) (survivors : List Ast) : Option Ast :=
  let name := canonicalName rawName
  match table.categoryOf name, survivors with
  | some .wrapper, [survivor] => some survivor
  | some .important, [] => some (.rule name [])
  | _, [] => none
  | _, survivors => some (.rule name survivors)

mutual

/-- What is left of a tree. -/
def reduceNode (table : CategoryTable) : Cst → Option Ast
  | .leaf leaf => reduceLeaf leaf
  | .rule name children => reduceRule table name (reduceChildren table children)

/-- What is left of several trees. -/
def reduceChildren (table : CategoryTable) : List Cst → List Ast
  | [] => []
  | t :: ts =>
    match reduceNode table t with
    | some ast => ast :: reduceChildren table ts
    | none => reduceChildren table ts

end

/-- A step of a reduction that is still to be done. -/
inductive ReductionTask
  | visit (tree : Cst)
  | finish (name : String) (arity : Nat)

namespace ReductionTask

/-- How much work a task stands for. -/
def weight : ReductionTask → Nat
  | visit tree => 2 * tree.size
  | finish _ _ => 1

/-- How much work some tasks stand for. -/
def weightAll : List ReductionTask → Nat
  | [] => 0
  | task :: tasks => task.weight + weightAll tasks

/-- The visits of some trees, from left to right. -/
def visits (trees : List Cst) : List ReductionTask := trees.map visit

/-- The work of tasks adds up. -/
theorem weightAll_append (tasks others : List ReductionTask) :
    weightAll (tasks ++ others) = weightAll tasks + weightAll others := by
  induction tasks with
  | nil => simp [weightAll]
  | cons task tasks ih => simp [weightAll, ih, Nat.add_assoc]

/-- The visits of some trees stand for twice as much work as the trees have nodes. -/
theorem weightAll_visits (trees : List Cst) :
    weightAll (visits trees) = 2 * Tree.sizeAll trees := by
  induction trees with
  | nil => rfl
  | cons t trees ih =>
    simp only [visits, List.map_cons, weightAll, weight, Tree.sizeAll] at ih ⊢
    omega

end ReductionTask

/-- Does the tasks in turn. `results` holds what is left of the trees that are done, the
latest at the head; finishing a rule takes the results of its children from there. -/
def runReduction (table : CategoryTable) (results : List (Option Ast)) :
    List ReductionTask → List (Option Ast)
  | [] => results
  | .visit (.leaf leaf) :: tasks => runReduction table (reduceLeaf leaf :: results) tasks
  | .visit (.rule name children) :: tasks =>
    runReduction table results
      (ReductionTask.visits children ++ .finish name children.length :: tasks)
  | .finish name arity :: tasks =>
    let survivors := (results.take arity).reverse.filterMap id
    runReduction table (reduceRule table name survivors :: results.drop arity) tasks
termination_by tasks => ReductionTask.weightAll tasks
decreasing_by
  · simp [ReductionTask.weightAll, ReductionTask.weight, Tree.size]
  · simp only [ReductionTask.weightAll_append, ReductionTask.weightAll_visits,
      ReductionTask.weightAll, ReductionTask.weight, Tree.size]
    omega
  · simp [ReductionTask.weightAll, ReductionTask.weight]

/-- The abstract tree of a concrete tree. -/
def reduce (table : CategoryTable) (tree : Cst) : Ast :=
  match runReduction table [] [.visit tree] with
  | some ast :: _ => ast
  | _ => .rule emptyRootName []

end CrateAnalysis
