import CrateAnalysis.Dot.Graph
import CrateAnalysis.Proofs.Dot.Label
import CrateAnalysis.Proofs.Text.Parts

/-!
# The lines of a drawing

A drawing lists the nodes of a tree in preorder. `Tree.entries` says by recursion on the tree which
nodes these are, each with its number and the number of its parent; the walk with pending trees
draws exactly these entries. Whatever the labels are, no line holds a newline, so the lines can be
read off the text again.
-/

set_option autoImplicit false

namespace CrateAnalysis

/-! ## The nodes in preorder -/

namespace Tree

/-- A node with its number, the number of its parent if it has one, and what it carries. -/
structure Entry (α : Type) where
  index : Nat
  parent? : Option Nat
  node : Node α

variable {α : Type}

mutual

/-- The nodes of a tree in preorder, numbered from `index` on. -/
def entries (parent? : Option Nat) (index : Nat) : Tree α → List (Entry α)
  | leaf a => [⟨index, parent?, .leaf a⟩]
  | rule name children =>
    ⟨index, parent?, .rule name⟩ :: entriesAll (some index) (index + 1) children

/-- The nodes of several trees with one parent. -/
def entriesAll (parent? : Option Nat) (index : Nat) : List (Tree α) → List (Entry α)
  | [] => []
  | t :: ts => entries parent? index t ++ entriesAll parent? (index + t.size) ts

end

/-- The nodes of several trees, each with a parent of its own. -/
def entriesPending (index : Nat) : List (Tree α × Option Nat) → List (Entry α)
  | [] => []
  | (t, parent?) :: pending => entries parent? index t ++ entriesPending (index + t.size) pending

/-- Pending trees are numbered on from those before them. -/
theorem entriesPending_append (index : Nat) (first second : List (Tree α × Option Nat)) :
    entriesPending index (first ++ second) =
      entriesPending index first ++
        entriesPending (index + sizeAll (first.map (·.1))) second := by
  induction first generalizing index with
  | nil => rfl
  | cons pair first ih =>
    simp [entriesPending, sizeAll, ih, Nat.add_assoc]

/-- Trees that wait with one parent are the children of that parent. -/
theorem entriesPending_map (parent? : Option Nat) (index : Nat) (ts : List (Tree α)) :
    entriesPending index (ts.map (·, parent?)) = entriesAll parent? index ts := by
  induction ts generalizing index with
  | nil => rfl
  | cons t ts ih => simp [entriesPending, entriesAll, ih]

end Tree

namespace Dot

variable {α : Type}

/-- The line that declares a node, and the edge to it. -/
def entryLines (mode : Mode) (label : α → String) (entry : Tree.Entry α) : List String :=
  match entry.node with
  | .leaf a => nodeLine entry.index (label a) mode.leafStyle :: edgeLines entry.parent? entry.index
  | .rule name => nodeLine entry.index name mode.ruleStyle :: edgeLines entry.parent? entry.index

/-- A tree is drawn as its root, and then as its children. -/
theorem flatMap_entries (mode : Mode) (label : α → String) (parent? : Option Nat) (index : Nat)
    (t : Tree α) :
    (t.entries parent? index).flatMap (entryLines mode label) =
      linesOf mode label parent? index t ++
        (Tree.entriesPending (index + 1) (childrenOf index t)).flatMap (entryLines mode label) := by
  cases t with
  | leaf a => simp [Tree.entries, Tree.entriesPending, childrenOf, entryLines, linesOf]
  | rule name children =>
    simp [Tree.entries, childrenOf, Tree.entriesPending_map, entryLines, linesOf]

/-- Drawing the pending trees adds the lines of their nodes. -/
theorem drawPending_eq (mode : Mode) (label : α → String) (index : Nat) (drawn : List String)
    (pending : List (Tree α × Option Nat)) :
    drawPending mode label index drawn pending =
      drawn.reverse ++ (Tree.entriesPending index pending).flatMap (entryLines mode label) := by
  fun_induction drawPending mode label index drawn pending with
  | case1 => simp [Tree.entriesPending]
  | case2 index drawn t parent? pending ih =>
    -- what is pending is numbered after the tree, its root and its children
    have hsize : index + t.size =
        index + 1 + Tree.sizeAll ((childrenOf index t).map (·.1)) := by
      have := sizeAll_childrenOf index t
      omega
    rw [ih, Tree.entriesPending, Tree.entriesPending_append, hsize, List.flatMap_append,
      List.flatMap_append, flatMap_entries]
    simp

/-- A drawing has its header, the lines of the nodes in preorder, and its closing line. -/
theorem lines_eq (mode : Mode) (label : α → String) (t : Tree α) :
    lines mode label t =
      mode.header ++ (t.entries none 0).flatMap (entryLines mode label) ++ [Mode.footer] := by
  simp [lines, drawPending_eq, Tree.entriesPending]

/-! ## No line holds a newline -/

/-- Numbers are written in digits. -/
theorem isDigit_of_mem_nodeName {index : Nat} {c : Char} (h : c ∈ (toString index).toList) :
    c.isDigit := by
  rw [Nat.toString_eq_ofList_toDigits, String.toList_ofList] at h
  exact Nat.isDigit_of_mem_toDigits (by decide) (by decide) h

/-- The name of a node stays on its line. -/
theorem newline_not_mem_nodeName (index : Nat) : '\n' ∉ (nodeName index).toList := by
  intro h
  rw [nodeName, String.toList_append, List.mem_append] at h
  rcases h with h | h
  · revert h
    decide +kernel
  · cases isDigit_of_mem_nodeName h

/-- So does a label, whatever its characters are. -/
theorem newline_not_mem_quote (cs : List Char) : '\n' ∉ quote (escapeChars cs) := by
  have hescaped := not_mem_escapeChars (.inl rfl) cs
  rw [quote_escapeChars]
  by_cases h : isBare cs
  · rw [escapeChars_of_isBare h] at hescaped
    rwa [if_pos h]
  · simp [h, hescaped]

/-- The line of a node is one line if its style is. -/
theorem newline_not_mem_nodeLine (index : Nat) (label : String) {style : String}
    (hstyle : '\n' ∉ style.toList) : '\n' ∉ (nodeLine index label style).toList := by
  simp [nodeLine, newline_not_mem_nodeName, newline_not_mem_quote, hstyle]

/-- No line of an entry holds a newline. -/
theorem newline_not_mem_entryLines {mode : Mode} {label : α → String} {entry : Tree.Entry α} :
    ∀ line ∈ entryLines mode label entry, '\n' ∉ line.toList := by
  have hedge : ∀ line ∈ edgeLines entry.parent? entry.index, '\n' ∉ line.toList := by
    intro line hline
    cases hparent : entry.parent? with
    | none => simp [hparent, edgeLines] at hline
    | some parent =>
      rw [hparent, edgeLines, List.mem_singleton] at hline
      simp [hline, newline_not_mem_nodeName]
  unfold entryLines
  cases entry.node with
  | leaf a =>
    rw [List.forall_mem_cons]
    exact ⟨newline_not_mem_nodeLine _ _ (by cases mode <;> decide +kernel), hedge⟩
  | rule name =>
    rw [List.forall_mem_cons]
    exact ⟨newline_not_mem_nodeLine _ _ (by cases mode <;> decide +kernel), hedge⟩

/-- No line of a drawing holds a newline. -/
theorem newline_not_mem_lines {mode : Mode} {label : α → String} {t : Tree α} :
    ∀ line ∈ lines mode label t, '\n' ∉ line.toList := by
  intro line hline
  rw [lines_eq, List.mem_append, List.mem_append] at hline
  rcases hline with (hline | hline) | hline
  · revert line
    cases mode <;> decide +kernel
  · obtain ⟨entry, -, hmem⟩ := List.mem_flatMap.mp hline
    exact newline_not_mem_entryLines line hmem
  · rw [List.mem_singleton] at hline
    subst hline
    decide +kernel

/-- The text of a drawing is cut at its newlines into its lines again. -/
theorem split_draw (mode : Mode) (label : α → String) (t : Tree α) :
    Text.split '\n' (draw mode label t).toList =
      (lines mode label t).map String.toList ++ [[]] := by
  have htext : ∀ texts : List String, (String.join (texts.map (· ++ "\n"))).toList =
      (texts.map String.toList).flatMap (· ++ ['\n']) := by
    intro texts
    induction texts with
    | nil => rfl
    | cons text texts ih => simp_all
  rw [draw, htext, Text.split_flatMap]
  intro line hline
  obtain ⟨text, htext, rfl⟩ := List.mem_map.mp hline
  exact newline_not_mem_lines text htext

end Dot

end CrateAnalysis
