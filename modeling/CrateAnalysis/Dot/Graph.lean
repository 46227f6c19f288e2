import CrateAnalysis.Dot.Label

/-!
# Drawings of trees

A drawing is a text in the DOT language, made of lines. After four header lines it declares
the nodes of a tree in preorder, numbered from 0, and right after every node but the root it
draws the edge from the node's parent. A concrete and an abstract tree are drawn in different
styles.

`Drawable` is a tree of either kind together with its kind, for callers that choose the mode
themselves: a tree can be drawn in the mode of its own kind only.
-/

set_option autoImplicit false

namespace CrateAnalysis

namespace Dot

/-- The two styles of drawing. -/
inductive Mode
  | concrete
  | abstract
deriving DecidableEq

namespace Mode

/-- The name of a mode. -/
def name : Mode → String
  | concrete => "CST"
  | abstract => "AST"

/-- The mode of a name. -/
def ofName? (name : String) : Option Mode :=
  [concrete, abstract].find? (·.name = name)

/-- The lines before the first node. -/
def header (mode : Mode) : List String :=
  ["digraph " ++ mode.name ++ " \x7b",
    "\tgraph [rankdir=TB]",
    match mode with
    | concrete => "\tnode [fillcolor=lightblue shape=ellipse style=filled]"
    | abstract => "\tnode [shape=ellipse style=filled]",
    match mode with
    | concrete => "\tedge [color=black]"
    | abstract => "\tedge [color=darkgreen]"]

/-- The line after the last node. -/
def footer : String := "\x7d"

/-- The attributes of a leaf, after its label. -/
def leafStyle : Mode → String
  | concrete => " fillcolor=yellow shape=box style=filled"
  | abstract => " fillcolor=black fontcolor=white shape=ellipse"

/-- The attributes of a rule, after its label. -/
def ruleStyle : Mode → String
  | concrete => ""
  | abstract => " fillcolor=lightcoral fontcolor=black shape=ellipse"

end Mode

/-- The name of a node. -/
def nodeName (index : Nat) : String := "node" ++ toString index

/-- The line that declares a node. -/
def nodeLine (index : Nat) (label style : String) : String :=
  "\t" ++ nodeName index ++ " [label=" ++
    String.ofList (quote (escapeChars label.toList)) ++ style ++ "]"

/-- The line that draws the edge to a node, if it has a parent. -/
def edgeLines (parent? : Option Nat) (index : Nat) : List String :=
  match parent? with
  | some parent => ["\t" ++ nodeName parent ++ " -> " ++ nodeName index]
  | none => []

variable {α : Type}

/-- The lines of one node. -/
def linesOf (mode : Mode) (label : α → String) (parent? : Option Nat) (index : Nat)
    (t : Tree α) : List String :=
  match t with
  | .leaf a => nodeLine index (label a) mode.leafStyle :: edgeLines parent? index
  | .rule name _ => nodeLine index name mode.ruleStyle :: edgeLines parent? index

/-- The children of a node, each with the number of that node. -/
def childrenOf (index : Nat) : Tree α → List (Tree α × Option Nat)
  | .leaf _ => []
  | .rule _ children => children.map (·, some index)

/-- A node and the trees below it make up the tree, so drawing the node leaves less to draw. -/
theorem sizeAll_childrenOf (index : Nat) (t : Tree α) :
    Tree.sizeAll ((childrenOf index t).map (·.1)) + 1 = t.size := by
  cases t <;> simp [childrenOf, Tree.sizeAll, Tree.size, Function.comp_def]

/-- Draws the pending trees after `drawn`, the lines of which are in reverse order. Each
pending tree knows its parent, and `index` is the number of the next node. -/
def drawPending (mode : Mode) (label : α → String) (index : Nat) (drawn : List String) :
    List (Tree α × Option Nat) → List String
  | [] => drawn.reverse
  | (t, parent?) :: pending =>
    drawPending mode label (index + 1)
      ((linesOf mode label parent? index t).reverse ++ drawn)
      (childrenOf index t ++ pending)
termination_by pending => Tree.sizeAll (pending.map (·.1))
decreasing_by
  have := sizeAll_childrenOf index t
  simp only [List.map_append, Tree.sizeAll_append, List.map_cons, Tree.sizeAll]
  omega

/-- The lines of the drawing of a tree. -/
def lines (mode : Mode) (label : α → String) (t : Tree α) : List String :=
  mode.header ++ drawPending mode label 0 [] [(t, none)] ++ [Mode.footer]

/-- The drawing of a tree. -/
def draw (mode : Mode) (label : α → String) (t : Tree α) : String :=
  String.join ((lines mode label t).map (· ++ "\n"))

/-- The drawing of a concrete tree. -/
def drawCst (t : Cst) : String := draw .concrete (fun leaf => displayText leaf.text) t

/-- The drawing of an abstract tree. -/
def drawAst (t : Ast) : String := draw .abstract id t

/-- A tree of either kind. -/
inductive Drawable
  | cst (t : Cst)
  | ast (t : Ast)

namespace Drawable

/-- Whether the root of a tree is a leaf. -/
def isLeaf : Drawable → Bool
  | cst (.leaf _) | ast (.leaf _) => true
  | _ => false

/-- The mode that fits a tree. -/
def mode : Drawable → Mode
  | cst _ => .concrete
  | ast _ => .abstract

/-- The number of nodes. -/
def count : Drawable → Nat
  | cst t => t.count
  | ast t => t.count

/-- What the root shows, before any escaping. -/
def rootLabel : Drawable → String
  | cst (.leaf a) => displayText a.text
  | ast (.leaf label) => label
  | cst (.rule name _) | ast (.rule name _) => name

/-- The drawing in the mode that fits. -/
def draw : Drawable → String
  | cst t => drawCst t
  | ast t => drawAst t

end Drawable

/-- A tree was to be drawn in the mode of the other kind. -/
structure ModeMismatch where
  tree : Drawable
  asked : Mode

/-- The drawing of a tree in a given mode, which has to be its own. -/
def render (t : Drawable) (mode : Mode) : Except ModeMismatch String :=
  if mode = t.mode then .ok t.draw else .error ⟨t, mode⟩

/-- The label of the root of a tree in a given mode, which has to be its own. -/
def displayLabel (t : Drawable) (mode : Mode) : Except ModeMismatch String :=
  if mode = t.mode then .ok t.rootLabel else .error ⟨t, mode⟩

end Dot

end CrateAnalysis
