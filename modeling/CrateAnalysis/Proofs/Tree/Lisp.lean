import CrateAnalysis.Proofs.Tree.Nodes
import CrateAnalysis.Tree.Lisp

/-!
# The list form by recursion

The list form of a concrete tree follows a recursion on the tree: a leaf is its text, a rule
without children its name, and any other rule its name and its children between parentheses, each
child after one blank. `IsListForm` says so of a function. What is pending while a list form is
written stands for the forms of its pieces one after another, so the writer is a function of this
kind, and it is the only one.
-/

set_option autoImplicit false

namespace CrateAnalysis

namespace Tree

/-- What a list form shows for a character of a leaf. -/
def layoutMark : Char → List Char
  | '\n' => ['\\', 'n']
  | '\r' => ['\\', 'r']
  | '\t' => ['\\', 't']
  | c => [c]

/-- A function that follows the recursion of list forms. -/
structure IsListForm (form : Cst → String) : Prop where
  leaf : ∀ a : Leaf, form (.leaf a) = String.ofList (a.text.toList.flatMap layoutMark)
  childless : ∀ name, form (.rule name []) = name
  parent : ∀ name first rest, form (.rule name (first :: rest)) =
    "(" ++ name ++ String.join ((first :: rest).map fun child => " " ++ form child) ++ ")"

/-! ## The recursion -/

/-- The three replacements in turn show a character as the list form does. -/
theorem substitute_layoutMark (c : Char) :
    substitute '\t' ['\\', 't'] (substitute '\r' ['\\', 'r'] (substitute '\n' ['\\', 'n'] [c])) =
      layoutMark c := by
  unfold layoutMark
  split
  · decide
  · decide
  · decide
  · simp_all [substitute]

/-- The replacements in a leaf treat each character on its own. -/
theorem escapeLayout_eq (text : String) :
    escapeLayout text = String.ofList (text.toList.flatMap layoutMark) := by
  unfold escapeLayout
  congr 1
  induction text.toList with
  | nil => rfl
  | cons c cs ih =>
    rw [List.flatMap_cons, ← ih, ← substitute_layoutMark]
    simp only [← substitute_append, List.singleton_append]

/-- The children of a rule after the first are each written after a blank. -/
theorem lispTail_eq (children : List Cst) :
    lispTail children = String.join (children.map fun child => " " ++ child.lisp) ++ ")" := by
  induction children with
  | nil => simp [lispTail]
  | cons child children ih => simp [lispTail, ih, String.append_assoc]

/-- The recursive list form follows the recursion of list forms. -/
theorem isListForm_lisp : IsListForm lisp where
  leaf a := by rw [lisp, escapeLayout_eq]
  childless name := by rw [lisp]
  parent name first rest := by simp [lisp, lispTail_eq, String.append_assoc]

/-- The recursion determines the form of every tree. -/
theorem IsListForm.eq {form other : Cst → String} (h : IsListForm form) (h' : IsListForm other) :
    form = other := by
  have hall : ∀ trees : List Cst, trees.map form = trees.map other := by
    intro trees
    induction trees using forestInduction with
    | nil => rfl
    | leaf a trees ih => rw [List.map_cons, List.map_cons, ih, h.leaf, h'.leaf]
    | rule name children trees ihchildren ih =>
      have hrule : form (.rule name children) = other (.rule name children) := by
        cases children with
        | nil => rw [h.childless, h'.childless]
        | cons first rest =>
          have hpieces : (first :: rest).map (fun child => " " ++ form child) =
              (first :: rest).map (fun child => " " ++ other child) := by
            simpa using congrArg (List.map (" " ++ ·)) ihchildren
          rw [h.parent, h'.parent, hpieces]
      rw [List.map_cons, List.map_cons, ih, hrule]
  funext t
  simpa using hall [t]

/-! ## The writer -/

/-- What a pending piece stands for. -/
def LispPiece.form : LispPiece → String
  | text s => s
  | tree t => t.lisp

/-- The pieces of some children stand for the children, each after a blank. -/
theorem LispPiece.join_ofChildren (children : List Cst) :
    String.join ((ofChildren children).map form) =
      String.join (children.map fun child => " " ++ child.lisp) := by
  induction children with
  | nil => rfl
  | cons child children ih => simp [ofChildren, form, ih, String.append_assoc]

/-- Writing the pending pieces adds what they stand for, in their order. -/
theorem writeLisp_eq (written : String) (pending : List LispPiece) :
    writeLisp written pending = written ++ String.join (pending.map LispPiece.form) := by
  fun_induction writeLisp written pending with
  | case1 written => simp
  | case2 written s pending ih => simp [ih, LispPiece.form, String.append_assoc]
  | case3 written a pending ih => simp [ih, LispPiece.form, lisp, String.append_assoc]
  | case4 written name pending ih => simp [ih, LispPiece.form, lisp, String.append_assoc]
  | case5 written name first rest pending ih =>
    -- the closing parenthesis waits below the pieces of all the children
    rw [ih, List.map_append, String.join_append, LispPiece.join_ofChildren, List.map_cons,
      List.map_cons, String.join_cons, String.join_cons]
    simp [LispPiece.form, isListForm_lisp.parent, String.append_assoc]

/-- What is written piece by piece is the recursive list form. -/
theorem toLisp_eq_lisp (t : Cst) : t.toLisp = t.lisp := by
  simp [toLisp, writeLisp_eq, LispPiece.form]

/-- The list form that is written piece by piece is the one function that follows the recursion,
whatever the depth and the width of the trees. -/
theorem isListForm_iff (form : Cst → String) : IsListForm form ↔ form = toLisp := by
  have htoLisp : toLisp = lisp := funext toLisp_eq_lisp
  rw [htoLisp]
  constructor
  · intro h
    exact h.eq isListForm_lisp
  · rintro rfl
    exact isListForm_lisp

end Tree

end CrateAnalysis
