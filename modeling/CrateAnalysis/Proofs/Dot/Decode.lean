import CrateAnalysis.Proofs.Dot.Lines
import CrateAnalysis.Proofs.Tree.Nodes

/-!
# Reading a drawing back

`decode` reads the tree off the text of a drawing. It reads the lines from the last one to the
first, so that the children of a node are complete when the line of the node comes. A label can
imitate neither an attribute nor an edge nor another line, whatever its characters are, for where
it ends can be told without knowing it. So every drawing is read back as the tree that it shows,
and two trees with one drawing show the same.
-/

set_option autoImplicit false

namespace CrateAnalysis

namespace Tree

variable {α : Type}

/-- The tree of a node with some children, which a leaf does not keep. -/
def Node.plant (children : List (Tree α)) : Node α → Tree α
  | leaf a => .leaf a
  | rule name => .rule name children

end Tree

namespace Dot

/-! ## Readers -/

/-- What follows the opening part of a list. -/
def after? {β : Type} [BEq β] (opening whole : List β) : Option (List β) :=
  if opening.isPrefixOf whole then some (whole.drop opening.length) else none

/-- What follows an opening part is found after it. -/
@[simp]
theorem after?_append {β : Type} [BEq β] [LawfulBEq β] (opening rest : List β) :
    after? opening (opening ++ rest) = some rest := by
  simp [after?]

/-- A number and what follows it. -/
def readNumber (cs : List Char) : Nat × List Char :=
  (Nat.ofDigitChars 10 (cs.takeWhile Char.isDigit) 0, cs.dropWhile Char.isDigit)

/-- A number is read back where no digit follows it. -/
theorem readNumber_append (n : Nat) {rest : List Char}
    (hrest : rest.head?.any Char.isDigit = false) :
    readNumber ((toString n).toList ++ rest) = (n, rest) := by
  have hword : ∀ c ∈ (toString n).toList, c.isDigit := fun c hc => isDigit_of_mem_nodeName hc
  obtain ⟨htake, hdrop⟩ := Text.takeWhile_dropWhile_append hword hrest
  rw [readNumber, htake, hdrop, Nat.toString_eq_ofList_toDigits, String.toList_ofList,
    Nat.ofDigitChars_ten_toDigits]

/-- The character that stands after a backslash for another. -/
def unescape (mark : Char) : Char := ((escapes.map Prod.swap).lookup mark).getD mark

/-- The text up to the first quote that no backslash protects, and what follows that quote. -/
def readQuoted : List Char → Option (List Char × List Char)
  | [] => none
  | '"' :: rest => some ([], rest)
  | '\\' :: mark :: rest =>
    (readQuoted rest).map fun (label, after) => (unescape mark :: label, after)
  | c :: rest => (readQuoted rest).map fun (label, after) => (c :: label, after)

/-- An escaped text is read back up to the quote that ends it. -/
theorem readQuoted_escapeChars (cs rest : List Char) :
    readQuoted (escapeChars cs ++ '"' :: rest) = some (cs, rest) := by
  induction cs with
  | nil => simp [readQuoted]
  | cons c cs ih =>
    rw [escapeChars_cons, List.append_assoc]
    rcases escapeChar_cases c with ⟨mark, hmem, h⟩ | ⟨hplain, h⟩
    · have hunescape : ∀ pair ∈ escapes, unescape pair.2 = pair.1 := by decide
      rw [h, List.cons_append, List.singleton_append, readQuoted, ih, Option.map_some,
        hunescape _ hmem]
    · simp only [escapes, List.forall_mem_cons] at hplain
      rw [h, List.singleton_append, readQuoted, ih, Option.map_some]
      · exact hplain.2.1
      · intro mark after hc
        exact absurd hc hplain.1

/-- A label as it stands in a drawing, and what follows it. -/
def readLabel : List Char → Option (List Char × List Char)
  | '"' :: rest => readQuoted rest
  | cs => some (cs.takeWhile isBareChar, cs.dropWhile isBareChar)

/-- A label is read back, bare or between quotes, where no character of a bare text follows. -/
theorem readLabel_quote (cs : List Char) {rest : List Char}
    (hrest : rest.head?.any isBareChar = false) :
    readLabel (quote (escapeChars cs) ++ rest) = some (cs, rest) := by
  rw [quote_escapeChars]
  by_cases hbare : isBare cs
  · have hword := isBareChar_of_isBare hbare
    obtain ⟨htake, hdrop⟩ := Text.takeWhile_dropWhile_append hword hrest
    rw [if_pos hbare, readLabel, htake, hdrop]
    intro later heq
    cases cs with
    | nil => cases hbare
    | cons c cs =>
      obtain rfl := (List.cons.inj heq).1
      cases hword _ (.head _)
  · rw [if_neg hbare, List.cons_append, List.cons_append, readLabel, List.append_assoc,
      List.singleton_append, readQuoted_escapeChars]

/-! ## Lines -/

/-- What a line of a drawing says. -/
inductive Line
  | node (index : Nat) (node : Tree.Node String)
  | edge (parent child : Nat)

/-- A node, given by its label and its style. -/
def readNode (mode : Mode) (cs : List Char) : Option (Tree.Node String) := do
  let (label, style) ← readLabel cs
  if style = (mode.leafStyle ++ "]").toList then some (.leaf (String.ofList label))
  else if style = (mode.ruleStyle ++ "]").toList then some (.rule (String.ofList label))
  else none

/-- What a line says, if it is the line of a node or an edge. -/
def readLine (mode : Mode) (cs : List Char) : Option Line := do
  let (index, rest) := readNumber (← after? "\tnode".toList cs)
  match after? " [label=".toList rest with
  | some label => (readNode mode label).map (.node index)
  | none => (after? " -> node".toList rest).map fun child => .edge index (readNumber child).1

/-- The line of a node, character by character: the number in decimal, and the label escaped and
between quotes where it has to be. -/
theorem toList_nodeLine (index : Nat) (label style : String) :
    (nodeLine index label style).toList =
      "\tnode".toList ++ ((toString index).toList ++ (" [label=".toList ++
        (quote (escapeChars label.toList) ++ (style ++ "]").toList))) := by
  simp [nodeLine, nodeName]

/-- The line of an edge, character by character: the numbers of its two nodes. -/
theorem toList_edgeLine (parent child : Nat) :
    ("\t" ++ nodeName parent ++ " -> " ++ nodeName child).toList =
      "\tnode".toList ++ ((toString parent).toList ++ (" -> node".toList ++
        ((toString child).toList ++ []))) := by
  simp [nodeName]

/-- The line of a node says its number, and of the node what label and style say. -/
theorem readLine_nodeLine (mode : Mode) (index : Nat) (label style : String) :
    readLine mode (nodeLine index label style).toList =
      (readNode mode (quote (escapeChars label.toList) ++ (style ++ "]").toList)).map
        (.node index) := by
  rw [toList_nodeLine, readLine, after?_append]
  simp only [Option.bind_eq_bind, Option.bind_some]
  rw [readNumber_append index (by simp)]
  simp only [after?_append]

/-- A label with the style of a leaf says that the node is a leaf. -/
theorem readNode_leaf (mode : Mode) (label : String) :
    readNode mode (quote (escapeChars label.toList) ++ (mode.leafStyle ++ "]").toList) =
      some (.leaf label) := by
  have hstyle : (mode.leafStyle ++ "]").toList.head?.any isBareChar = false := by
    cases mode <;> decide +kernel
  rw [readNode, readLabel_quote _ hstyle]
  simp

/-- A label with the style of a rule says that the node is a rule, for the two styles differ. -/
theorem readNode_rule (mode : Mode) (label : String) :
    readNode mode (quote (escapeChars label.toList) ++ (mode.ruleStyle ++ "]").toList) =
      some (.rule label) := by
  have hstyle : (mode.ruleStyle ++ "]").toList.head?.any isBareChar = false := by
    cases mode <;> decide +kernel
  have hne : (mode.ruleStyle ++ "]").toList ≠ (mode.leafStyle ++ "]").toList := by
    cases mode <;> decide +kernel
  rw [readNode, readLabel_quote _ hstyle]
  simp only [Option.bind_eq_bind, Option.bind_some, if_neg hne, String.ofList_toList]
  simp

/-- The line of an edge says from which node to which it goes. -/
theorem readLine_edgeLine (mode : Mode) (parent child : Nat) :
    readLine mode ("\t" ++ nodeName parent ++ " -> " ++ nodeName child).toList =
      some (.edge parent child) := by
  have hedge : ∀ rest, after? " [label=".toList (" -> node".toList ++ rest) = none := by
    intro rest
    rfl
  rw [toList_edgeLine, readLine, after?_append]
  simp only [Option.bind_eq_bind, Option.bind_some]
  rw [readNumber_append parent (by simp)]
  simp only [hedge, after?_append, Option.map_some]
  rw [readNumber_append child (by simp)]

/-- What the lines of an entry say. -/
def entryItems {α : Type} (label : α → String) (entry : Tree.Entry α) : List Line :=
  .node entry.index (entry.node.relabel label) ::
    (entry.parent?.map (.edge · entry.index)).toList

/-- Every line of an entry says what it is there for: the first declares the node, with its number,
its kind and its label, and the second, if there is one, draws the edge from its parent. -/
theorem map_readLine_entryLines {α : Type} (mode : Mode) (label : α → String)
    (entry : Tree.Entry α) :
    (entryLines mode label entry).map (readLine mode ·.toList) =
      (entryItems label entry).map some := by
  have hedge : (edgeLines entry.parent? entry.index).map (readLine mode ·.toList) =
      (entry.parent?.map (.edge · entry.index)).toList.map some := by
    cases entry.parent? with
    | none => rfl
    | some parent =>
      rw [edgeLines, List.map_singleton, readLine_edgeLine]
      rfl
  unfold entryLines entryItems
  cases entry.node with
  | leaf a =>
    rw [List.map_cons, List.map_cons, hedge, readLine_nodeLine, readNode_leaf]
    rfl
  | rule name =>
    rw [List.map_cons, List.map_cons, hedge, readLine_nodeLine, readNode_rule]
    rfl

/-- What the lines of some entries say can be read off all of them together. -/
theorem filterMap_readLine_entryLines {α : Type} (mode : Mode) (label : α → String)
    (entries : List (Tree.Entry α)) :
    ((entries.flatMap (entryLines mode label)).map String.toList).filterMap (readLine mode) =
      entries.flatMap (entryItems label) := by
  induction entries with
  | nil => rfl
  | cons entry entries ih =>
    have hentry := congrArg (List.filterMap id) (map_readLine_entryLines mode label entry)
    rw [List.filterMap_map, List.filterMap_map, Function.id_comp, Function.id_comp,
      List.filterMap_some] at hentry
    rw [List.flatMap_cons, List.map_append, List.filterMap_append, ih, List.flatMap_cons, ← hentry,
      List.filterMap_map]
    rfl

/-! ## Trees -/

/-- What has been built from the lines after a place: the parent of the node whose line comes
next, if the edge to it has been read, and the trees whose parents have not been read yet. -/
structure Growth where
  parent? : Option Nat
  trees : List (Option Nat × Tree String)

/-- Reads one line more. A node takes the trees that wait for it as its children. -/
def Growth.add (line : Line) (growth : Growth) : Growth :=
  match line with
  | .edge parent _ => { growth with parent? := some parent }
  | .node index node =>
    let children := (growth.trees.filter (·.1 = some index)).map (·.2)
    { parent? := none
      trees := (growth.parent?, node.plant children) :: growth.trees.filter (·.1 ≠ some index) }

/-- Reads some lines from the last one to the first. -/
def Growth.addAll (lines : List Line) (growth : Growth) : Growth := lines.foldr Growth.add growth

/-- Lines are read from the last one on, so the second part comes first. -/
theorem Growth.addAll_append (first second : List Line) (growth : Growth) :
    addAll (first ++ second) growth = addAll first (addAll second growth) :=
  List.foldr_append

section Growing

variable {α : Type} (label : α → String)

/-- The lines of an entry gather the trees that wait for it into one, which waits for its parent. -/
theorem addAll_entryItems (entry : Tree.Entry α) (trees : List (Option Nat × Tree String)) :
    Growth.addAll (entryItems label entry) ⟨none, trees⟩ =
      ⟨none, (entry.parent?, (entry.node.relabel label).plant
          ((trees.filter (·.1 = some entry.index)).map (·.2))) ::
        trees.filter (·.1 ≠ some entry.index)⟩ := by
  unfold entryItems
  cases entry.parent? <;> rfl

/-- Trees that wait for nodes before `index` do not wait for `index`. -/
theorem filter_waiting {waiting : List (Option Nat × Tree String)} {index : Nat}
    (hwaiting : ∀ pair ∈ waiting, ∀ parent ∈ pair.1, parent < index) :
    waiting.filter (·.1 = some index) = [] ∧ waiting.filter (·.1 ≠ some index) = waiting := by
  have hne : ∀ pair ∈ waiting, pair.1 ≠ some index := fun pair hpair heq =>
    Nat.lt_irrefl _ (hwaiting pair hpair index heq)
  constructor
  · rw [List.filter_eq_nil_iff]
    simpa using hne
  · rw [List.filter_eq_self]
    simpa using hne

mutual

/-- The lines of a tree add the tree, if what waits does not wait for one of its nodes. -/
theorem addAll_entries (t : Tree α) (parent? : Option Nat) (index : Nat)
    (waiting : List (Option Nat × Tree String))
    (hwaiting : ∀ pair ∈ waiting, ∀ parent ∈ pair.1, parent < index) :
    Growth.addAll ((t.entries parent? index).flatMap (entryItems label)) ⟨none, waiting⟩ =
      ⟨none, (parent?, t.relabel label) :: waiting⟩ := by
  obtain ⟨hnone, hall⟩ := filter_waiting hwaiting
  cases t with
  | leaf a =>
    rw [Tree.entries, List.flatMap_singleton, addAll_entryItems]
    simp only [hall]
    rfl
  | rule name children =>
    have hchildren := addAll_entriesAll children (some index) (index + 1) waiting
      (by simp) (fun pair hpair parent h => Nat.lt_succ_of_lt (hwaiting pair hpair parent h))
    rw [Tree.entries, List.flatMap_cons, Growth.addAll_append, hchildren, addAll_entryItems]
    -- the children are all that waits for this node
    have hown : ∀ ts : List (Tree String),
        (ts.map (some index, ·)).filter (·.1 = some index) = ts.map (some index, ·) ∧
          (ts.map (some index, ·)).filter (·.1 ≠ some index) = [] := by
      intro ts
      simp [List.filter_map, Function.comp_def]
    simp only [List.filter_append, hnone, hall, hown]
    simp [Tree.Node.relabel, Tree.Node.plant, Tree.relabel, Function.comp_def]

/-- The lines of several trees with one parent add these trees. -/
theorem addAll_entriesAll (ts : List (Tree α)) (parent? : Option Nat) (index : Nat)
    (waiting : List (Option Nat × Tree String))
    (hparent : ∀ parent ∈ parent?, parent < index)
    (hwaiting : ∀ pair ∈ waiting, ∀ parent ∈ pair.1, parent < index) :
    Growth.addAll ((Tree.entriesAll parent? index ts).flatMap (entryItems label))
        ⟨none, waiting⟩ =
      ⟨none, (Tree.relabelAll label ts).map (parent?, ·) ++ waiting⟩ := by
  cases ts with
  | nil => rfl
  | cons t ts =>
    have hlater := addAll_entriesAll ts parent? (index + t.size) waiting
      (fun parent h => Nat.lt_add_right _ (hparent parent h))
      (fun pair hpair parent h => Nat.lt_add_right _ (hwaiting pair hpair parent h))
    rw [Tree.entriesAll, List.flatMap_append, Growth.addAll_append, hlater]
    apply addAll_entries t
    intro pair hpair
    rcases List.mem_append.mp hpair with hpair | hpair
    · obtain ⟨-, -, rfl⟩ := List.mem_map.mp hpair
      exact hparent
    · exact hwaiting pair hpair

end

end Growing

/-! ## Drawings -/

/-- The tree of a drawing in a mode, given by its lines. -/
def decodeLines (mode : Mode) (lines : List (List Char)) : Option (Tree String) := do
  let drawn ← after? (mode.header.map String.toList) lines
  match (Growth.addAll (drawn.filterMap (readLine mode)) ⟨none, []⟩).trees with
  | [(none, t)] => some t
  | _ => none

/-- The mode and the tree of a drawing. -/
def decode (text : String) : Option (Mode × Tree String) :=
  [Mode.concrete, Mode.abstract].findSome? fun mode =>
    (decodeLines mode (Text.split '\n' text.toList)).map (mode, ·)

/-- The lines of a drawing are read back as the tree with its labels. -/
theorem decodeLines_lines {α : Type} (mode : Mode) (label : α → String) (t : Tree α) :
    decodeLines mode ((lines mode label t).map String.toList ++ [[]]) =
      some (t.relabel label) := by
  have hend : ([Mode.footer].map String.toList ++ [[]]).filterMap (readLine mode) = [] := by
    cases mode <;> rfl
  rw [lines_eq, List.map_append, List.map_append, List.append_assoc, List.append_assoc,
    decodeLines, after?_append]
  simp only [Option.bind_eq_bind, Option.bind_some]
  rw [List.filterMap_append, hend, filterMap_readLine_entryLines, List.append_nil,
    addAll_entries label t none 0 [] (by simp)]

/-- Every drawing is read back. -/
theorem decode_draw {α : Type} (mode : Mode) (label : α → String) (t : Tree α) :
    decode (draw mode label t) = some (mode, t.relabel label) := by
  have hlines := decodeLines_lines mode label t
  rw [decode, split_draw]
  cases mode with
  | concrete => simp [hlines]
  | abstract =>
    -- the first line already tells the modes apart
    have hother : decodeLines .concrete ((lines .abstract label t).map String.toList ++ [[]]) =
        none := by
      rw [lines_eq]
      rfl
    simp [hother, hlines]

namespace Drawable

/-- The tree that a drawing shows: every leaf with what it shows, before any escaping. -/
def shown : Drawable → Tree String
  | cst t => t.relabel fun leaf => displayText leaf.text
  | ast t => t.relabel id

/-- The trees below the root. -/
def children : Drawable → List Drawable
  | cst (.rule _ ts) => ts.map cst
  | ast (.rule _ ts) => ts.map ast
  | _ => []

/-- At the root and, since the same holds of the trees below it, at every node, the tree that is
shown has the kind of the node and its label. -/
theorem shown_eq (t : Drawable) :
    t.shown =
      if t.isLeaf then .leaf t.rootLabel else .rule t.rootLabel (t.children.map shown) := by
  cases t with
  | cst t =>
    cases t with
    | leaf a => rfl
    | rule name ts =>
      simp [shown, Tree.relabel, Tree.relabelAll_eq_map, isLeaf, rootLabel, children]
  | ast t =>
    cases t with
    | leaf a => rfl
    | rule name ts =>
      simp [shown, Tree.relabel, Tree.relabelAll_eq_map, isLeaf, rootLabel, children]

end Drawable

/-- Trees are drawn in the modes that fit them, and the drawing is read back as the mode and the
tree that it shows. So two trees with one drawing are of one kind and show the same: they have the
same shape, and at every node the same kind and the same label. -/
theorem render_determines_tree (t₁ t₂ : Drawable) (m₁ m₂ : Mode) (hfit₁ : m₁ = t₁.mode)
    (hfit₂ : m₂ = t₂.mode) :
    (∃ text, render t₁ m₁ = .ok text ∧ decode text = some (m₁, t₁.shown)) ∧
      (render t₁ m₁ = render t₂ m₂ → m₁ = m₂ ∧ t₁.shown = t₂.shown) := by
  have hdecode : ∀ t : Drawable, decode t.draw = some (t.mode, t.shown) := by
    intro t
    cases t with
    | cst t =>
      rw [Drawable.draw, drawCst, decode_draw]
      rfl
    | ast t =>
      rw [Drawable.draw, drawAst, decode_draw]
      rfl
  have hrender : ∀ t : Drawable, render t t.mode = .ok t.draw := fun t => if_pos rfl
  subst hfit₁ hfit₂
  rw [hrender, hrender]
  refine ⟨⟨_, rfl, hdecode t₁⟩, fun heq => ?_⟩
  have hsame := hdecode t₂
  rw [← Except.ok.inj heq, hdecode t₁, Option.some.injEq, Prod.mk.injEq] at hsame
  exact hsame

/-- The end of input shows the same as a token with the text that names it. A text of a quote, a
bracket and a newline is read back between them. -/
theorem render_determines_end :
    let t₁ := Drawable.cst
      (.rule "crate" [.leaf ⟨"\"]\n", some "STRING"⟩, .leaf ⟨"<EOF>", some "EOF"⟩])
    let t₂ := Drawable.cst
      (.rule "crate" [.leaf ⟨"\"]\n", some "STRING"⟩, .leaf ⟨"EOF", some "IDENT"⟩])
    render t₁ .concrete = render t₂ .concrete ∧ t₁.shown = t₂.shown ∧
      ∃ text, render t₁ .concrete = .ok text ∧
        decode text = some (.concrete, .rule "crate" [.leaf "\"]\n", .leaf "EOF"]) := by
  intro t₁ t₂
  have hdraw : t₁.draw = t₂.draw := by decide +kernel
  have hrender : render t₁ .concrete = render t₂ .concrete := congrArg Except.ok hdraw
  have hquote : displayText "\"]\n" = "\"]\n" := by decide +kernel
  have hend : displayText "<EOF>" = "EOF" := by decide +kernel
  have hshown : t₁.shown = .rule "crate" [.leaf "\"]\n", .leaf "EOF"] := by
    simp [t₁, Drawable.shown, Tree.relabel, Tree.relabelAll, hquote, hend]
  obtain ⟨hdecode, hsame⟩ := render_determines_tree t₁ t₂ .concrete .concrete rfl rfl
  rw [hshown] at hdecode
  exact ⟨hrender, (hsame hrender).2, hdecode⟩

end Dot

end CrateAnalysis
