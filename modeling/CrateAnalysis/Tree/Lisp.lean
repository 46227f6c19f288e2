import CrateAnalysis.Tree.Basic

/-!
# The list form of a concrete tree

A rule with children is written as its name and its children between parentheses, one blank
before each child; a rule without children as its name alone; a leaf as its text, with the
characters that end a line or move to a tab stop written as escapes.

`lisp` says this by recursion. `toLisp` writes the pieces with a list of what is pending, so
that the depth of the tree does not matter.
-/

set_option autoImplicit false

namespace CrateAnalysis

/-- Puts a text in the place of every occurrence of a character. -/
def substitute (c : Char) (text : List Char) (cs : List Char) : List Char :=
  cs.flatMap fun d => if d = c then text else [d]

/-- A replacement in two texts is one in each of them. -/
theorem substitute_append (c : Char) (text first second : List Char) :
    substitute c text (first ++ second) = substitute c text first ++ substitute c text second := by
  simp [substitute]

/-- A text with newlines, carriage returns and tabs as escapes. -/
def escapeLayout (text : String) : String :=
  String.ofList (substitute '\t' ['\\', 't'] (substitute '\r' ['\\', 'r']
    (substitute '\n' ['\\', 'n'] text.toList)))

namespace Tree

mutual

/-- The list form of a concrete tree. -/
def lisp : Cst → String
  | leaf a => escapeLayout a.text
  | rule name [] => name
  | rule name (t :: ts) => "(" ++ name ++ " " ++ lisp t ++ lispTail ts

/-- The children after the first, each after a blank, and the closing parenthesis. -/
def lispTail : List Cst → String
  | [] => ")"
  | t :: ts => " " ++ lisp t ++ lispTail ts

end

/-- A part of a list form that is still to be written. -/
inductive LispPiece
  | text (s : String)
  | tree (t : Cst)

namespace LispPiece

/-- How much work a piece stands for. -/
def weight : LispPiece → Nat
  | text _ => 1
  | tree t => 3 * t.size - 1

/-- How much work some pieces stand for. -/
def weightAll : List LispPiece → Nat
  | [] => 0
  | piece :: pieces => piece.weight + weightAll pieces

/-- The pieces of some children, each after a blank. -/
def ofChildren : List Cst → List LispPiece
  | [] => []
  | t :: ts => text " " :: tree t :: ofChildren ts

/-- The work of pieces adds up. -/
theorem weightAll_append (pieces others : List LispPiece) :
    weightAll (pieces ++ others) = weightAll pieces + weightAll others := by
  induction pieces with
  | nil => simp [weightAll]
  | cons piece pieces ih => simp [weightAll, ih, Nat.add_assoc]

/-- The pieces of some children stand for three times as much work as the children have nodes. -/
theorem weightAll_ofChildren (children : List Cst) :
    weightAll (ofChildren children) = 3 * sizeAll children := by
  induction children with
  | nil => rfl
  | cons t ts ih =>
    have := t.size_pos
    simp only [ofChildren, weightAll, weight, sizeAll] at ih ⊢
    omega

end LispPiece

/-- Writes the pending pieces after `written`. -/
def writeLisp (written : String) : List LispPiece → String
  | [] => written
  | .text s :: pending => writeLisp (written ++ s) pending
  | .tree (leaf a) :: pending => writeLisp (written ++ escapeLayout a.text) pending
  | .tree (rule name []) :: pending => writeLisp (written ++ name) pending
  | .tree (rule name (t :: ts)) :: pending =>
    writeLisp (written ++ "(" ++ name) (LispPiece.ofChildren (t :: ts) ++ .text ")" :: pending)
termination_by pending => LispPiece.weightAll pending
decreasing_by
  · simp [LispPiece.weightAll, LispPiece.weight]
  · simp [LispPiece.weightAll, LispPiece.weight, size]
  · simp [LispPiece.weightAll, LispPiece.weight, size, sizeAll]
  · simp only [LispPiece.weightAll_append, LispPiece.weightAll_ofChildren,
      LispPiece.weightAll, LispPiece.weight, size]
    omega

/-- The list form of a concrete tree, written piece by piece. -/
def toLisp (t : Cst) : String := writeLisp "" [.tree t]

end Tree

end CrateAnalysis
