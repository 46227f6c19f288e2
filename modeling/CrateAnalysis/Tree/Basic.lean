/-!
# Syntax trees

A syntax tree has leaves, which carry what the tree is a tree of, and rule nodes, which carry
a name and children. In a concrete tree a leaf is a token with its text and, if known, its
kind; in an abstract tree a leaf is a label alone.

The structural functions `size`, `preorder` and `leaves` describe a tree by recursion on it.
`count` and `outline` visit a tree with a list of pending nodes instead, so that neither
needs room that grows with the depth of the tree; they agree with `size` and `preorder`.
-/

set_option autoImplicit false

namespace CrateAnalysis

/-- A tree with leaves from `α` and named inner nodes. -/
inductive Tree (α : Type)
  | leaf (a : α)
  | rule (name : String) (children : List (Tree α))

/-- The leaf of a concrete tree: the text of a token and its kind, if that is known. -/
structure Leaf where
  text : String
  kind? : Option String
deriving DecidableEq

/-- A concrete syntax tree: what was written, token by token. -/
abbrev Cst := Tree Leaf

/-- An abstract syntax tree: its leaves are labels. -/
abbrev Ast := Tree String

namespace Tree

variable {α β : Type}

mutual

/-- The number of nodes of a tree. -/
def size : Tree α → Nat
  | leaf _ => 1
  | rule _ children => sizeAll children + 1

/-- The number of nodes of several trees. -/
def sizeAll : List (Tree α) → Nat
  | [] => 0
  | t :: ts => t.size + sizeAll ts

end

mutual

/-- The leaves of a tree from left to right. -/
def leaves : Tree α → List α
  | leaf a => [a]
  | rule _ children => leavesAll children

/-- The leaves of several trees from left to right. -/
def leavesAll : List (Tree α) → List α
  | [] => []
  | t :: ts => t.leaves ++ leavesAll ts

end

/-- What a node carries, without its children. -/
inductive Node (α : Type)
  | leaf (a : α)
  | rule (name : String)
deriving DecidableEq

mutual

/-- The nodes of a tree, each before its children, with their depths below `depth`. -/
def preorder (depth : Nat) : Tree α → List (Nat × Node α)
  | leaf a => [(depth, .leaf a)]
  | rule name children => (depth, .rule name) :: preorderAll (depth + 1) children

/-- The nodes of several trees that stand side by side. -/
def preorderAll (depth : Nat) : List (Tree α) → List (Nat × Node α)
  | [] => []
  | t :: ts => t.preorder depth ++ preorderAll depth ts

end

/-- Every tree has a node. -/
theorem size_pos (t : Tree α) : 0 < t.size := by
  cases t <;> simp [size]

/-- The nodes of trees add up. -/
theorem sizeAll_append (ts us : List (Tree α)) :
    sizeAll (ts ++ us) = sizeAll ts + sizeAll us := by
  induction ts with
  | nil => simp [sizeAll]
  | cons t ts ih => simp [sizeAll, ih, Nat.add_assoc]

/-- Counts the nodes of the pending trees on top of `counted`. -/
def countPending (counted : Nat) : List (Tree α) → Nat
  | [] => counted
  | leaf _ :: pending => countPending (counted + 1) pending
  | rule _ children :: pending => countPending (counted + 1) (children ++ pending)
termination_by pending => sizeAll pending
decreasing_by
  all_goals simp only [sizeAll, sizeAll_append, size]
  all_goals omega

/-- The number of nodes of a tree, counted node by node. -/
def count (t : Tree α) : Nat := countPending 0 [t]

/-- To count the pending trees adds their nodes to what has been counted. -/
theorem countPending_eq (counted : Nat) (pending : List (Tree α)) :
    countPending counted pending = counted + sizeAll pending := by
  fun_induction countPending counted pending with
  | case1 => simp [sizeAll]
  | case2 counted _ _ ih => rw [ih]; simp only [sizeAll, size]; omega
  | case3 counted _ _ _ ih =>
    rw [ih]
    simp only [sizeAll, sizeAll_append, size]
    omega

/-- Counting with a list of pending trees gives the size. -/
theorem count_eq_size (t : Tree α) : t.count = t.size := by
  simp [count, countPending_eq, sizeAll]

/-- Lists the nodes of the pending trees, each with its depth, after the nodes in `done`,
the latest of which is at the head. -/
def outlinePending (done : List (Nat × Node α)) : List (Nat × Tree α) → List (Nat × Node α)
  | [] => done.reverse
  | (depth, leaf a) :: pending => outlinePending ((depth, .leaf a) :: done) pending
  | (depth, rule name children) :: pending =>
    outlinePending ((depth, .rule name) :: done) (children.map (depth + 1, ·) ++ pending)
termination_by pending => sizeAll (pending.map (·.2))
decreasing_by
  all_goals simp [sizeAll, sizeAll_append, size, Function.comp_def]

/-- The nodes of a tree, each before its children, with their depths. -/
def outline (t : Tree α) : List (Nat × Node α) := outlinePending [] [(0, t)]

/-- To list the pending trees adds their preorders, each from its depth on, to what has been listed.
-/
theorem outlinePending_eq (done : List (Nat × Node α)) (pending : List (Nat × Tree α)) :
    outlinePending done pending =
      done.reverse ++ pending.flatMap fun (depth, t) => t.preorder depth := by
  have preorderAll_eq (depth : Nat) (ts : List (Tree α)) :
      preorderAll depth ts = ts.flatMap (·.preorder depth) := by
    induction ts with
    | nil => rfl
    | cons t ts ih => simp [preorderAll, ih]
  fun_induction outlinePending done pending with
  | case1 => simp
  | case2 _ _ _ _ ih => rw [ih]; simp [preorder]
  | case3 _ _ _ _ _ ih =>
    simpa [preorder, preorderAll_eq, List.flatMap_map] using ih

/-- Listing with a list of pending trees gives the preorder. -/
theorem outline_eq_preorder (t : Tree α) : t.outline = t.preorder 0 := by
  simp [outline, outlinePending_eq]

end Tree

end CrateAnalysis
