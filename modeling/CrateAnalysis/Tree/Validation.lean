import CrateAnalysis.Json.Issue
import CrateAnalysis.Json.Shown
import CrateAnalysis.Tree.Basic

/-!
# Trees from JSON

A node is an object whose member `kind` is `terminal` or `rule`. A terminal has the text of a
leaf; a rule has a name and may have a list of children. The two kinds of tree differ in the
names of these members, which a `TreeFormat` gives. Other members are ignored.

A value that is no tree gives all its issues: at each node first those of its own members,
then those of its children in order. The path to a node names, after each step to the node,
which kind it has.
-/

set_option autoImplicit false

namespace CrateAnalysis

/-- A member that has to be a text. -/
def requiredText (members : List (String × Json)) (name : String) (path : List PathStep) :
    Checked String :=
  match Json.member? members name with
  | some (.str s) => .ok s
  | some _ => .issue .notText (path ++ [.field name])
  | none => .issue .fieldMissing (path ++ [.field name])

/-- A member that is a text, or null or absent. -/
def optionalText (members : List (String × Json)) (name : String) (path : List PathStep) :
    Checked (Option String) :=
  match Json.member? members name with
  | some (.str s) => .ok (some s)
  | some .null | none => .ok none
  | some _ => .issue .notText (path ++ [.field name])

/-- How trees with leaves from `α` are written in JSON. -/
structure TreeFormat (α : Type) where
  ruleName : String
  leaf : List (String × Json) → List PathStep → Checked α

/-- Concrete trees. -/
def cstFormat : TreeFormat Leaf where
  ruleName := "name"
  leaf members path :=
    .both Leaf.mk (requiredText members "text" path) (optionalText members "token_type" path)

/-- Abstract trees. -/
def astFormat : TreeFormat String where
  ruleName := "label"
  leaf members path := requiredText members "label" path

/-- The value of a member is smaller than the members, so the reader gets to an end. -/
theorem sizeOf_lt_of_member? {members : List (String × Json)} {name : String} {v : Json}
    (h : Json.member? members name = some v) : sizeOf v < sizeOf members := by
  simp only [Json.member?, Option.map_eq_some_iff] at h
  obtain ⟨⟨key, w⟩, found, rfl⟩ := h
  have mem : (key, w) ∈ members := List.mem_reverse.1 (List.mem_of_find?_eq_some found)
  have lt := List.sizeOf_lt_of_mem mem
  simp only [Prod.mk.sizeOf_spec] at lt
  simp only
  omega

mutual

/-- The tree that a JSON value at some place stands for. -/
def readTree {α : Type} (format : TreeFormat α) (path : List PathStep) (v : Json) :
    Checked (Tree α) :=
  match v with
  | .obj members =>
    match Json.member? members "kind" with
    | none => .issue .tagMissing path
    | some (.str "terminal") =>
      (format.leaf members (path ++ [.field "terminal"])).map .leaf
    | some (.str "rule") =>
      let here := path ++ [.field "rule"]
      let name := requiredText members format.ruleName here
      match _h : Json.member? members "children" with
      | none => name.map (.rule · [])
      | some (.arr items) =>
        .both .rule name (readChildren format (here ++ [.field "children"]) 0 items)
      | some _ => .both .rule name (.issue .notList (here ++ [.field "children"]))
    | some tag => .issue (.tagUnknown tag.shownTag) path
  | _ => .issue .notObject path
termination_by sizeOf v
decreasing_by
  have := sizeOf_lt_of_member? ‹_›
  simp only [Json.arr.sizeOf_spec, Json.obj.sizeOf_spec] at this ⊢
  omega

/-- The trees that the values of a list stand for, the first of which has the index `n`. -/
def readChildren {α : Type} (format : TreeFormat α) (path : List PathStep) (n : Nat)
    (items : List Json) : Checked (List (Tree α)) :=
  match items with
  | [] => .ok []
  | v :: vs =>
    .both .cons (readTree format (path ++ [.index n]) v) (readChildren format path (n + 1) vs)
termination_by sizeOf items

end

/-- The concrete tree of a JSON value. -/
def readCst (path : List PathStep) (v : Json) : Checked Cst := readTree cstFormat path v

/-- The abstract tree of a JSON value. -/
def readAst (path : List PathStep) (v : Json) : Checked Ast := readTree astFormat path v

end CrateAnalysis
