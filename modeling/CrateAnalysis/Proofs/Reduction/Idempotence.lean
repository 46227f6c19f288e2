import CrateAnalysis.Proofs.Reduction.Remains

/-!
# Reducing twice

An abstract tree can be read as a concrete one, its labels being the texts and the names there. A
reduction of it finds nothing to do: what is left of a rule is left of it again, for a canonical
name keeps its label and, with it, its category. The names have to be canonical once a suffix is
dropped, for otherwise the second reduction drops another suffix. The empty rule that stands for a
tree of which nothing is left comes out again whatever its category is, since it is either kept or
put in the place of what vanished.
-/

set_option autoImplicit false

namespace CrateAnalysis

variable {table : CategoryTable}

/-- An abstract tree as a concrete one, in which the kinds of the tokens are not known. -/
def Ast.toCst (ast : Ast) : Cst := ast.relabel fun label => ⟨label, none⟩

/-- The rule names of trees have no suffix left once one is dropped. -/
def CanonicalOnce (trees : List Cst) : Prop :=
  ∀ name, .rule name ∈ Tree.nodesAll trees → canonicalName (canonicalName name) = canonicalName name

/-- A label becomes a token of no known kind. -/
theorem toCst_leaf (label : String) : Ast.toCst (.leaf label) = .leaf ⟨label, none⟩ := by
  rw [Ast.toCst, Tree.relabel]

/-- A rule keeps its label and its children. -/
theorem toCst_rule (label : String) (children : List Ast) :
    Ast.toCst (.rule label children) = .rule label (children.map Ast.toCst) := by
  rw [Ast.toCst, Tree.relabel, Tree.relabelAll_eq_map]
  rfl

/-- A leaf has no rule name. -/
theorem canonicalOnce_leaf {leaf : Leaf} {trees : List Cst} :
    CanonicalOnce (.leaf leaf :: trees) ↔ CanonicalOnce trees := by
  simp [CanonicalOnce]

/-- The condition on the names of trees is one on the first rule, on its children and on the trees
after it. -/
theorem canonicalOnce_rule {name : String} {children trees : List Cst} :
    CanonicalOnce (.rule name children :: trees) ↔
      canonicalName (canonicalName name) = canonicalName name ∧
        CanonicalOnce children ∧ CanonicalOnce trees := by
  simp only [CanonicalOnce, Tree.nodesAll_rule, List.mem_cons, List.mem_append,
    Tree.Node.rule.injEq]
  constructor
  · intro h
    exact ⟨h name (.inl rfl), fun other hother => h other (.inr (.inl hother)),
      fun other hother => h other (.inr (.inr hother))⟩
  · rintro ⟨hname, hchildren, htrees⟩ other (rfl | hother | hother)
    · exact hname
    · exact hchildren other hother
    · exact htrees other hother

/-- What is left of trees that stand side by side is what is left of each part. -/
theorem Remains.append {first second : List Cst} {asts others : List Ast}
    (hfirst : Remains table first asts) (hsecond : Remains table second others) :
    Remains table (first ++ second) (asts ++ others) := by
  rw [remains_iff] at *
  rw [hfirst, hsecond, reduceChildren_eq_reduceOption, reduceChildren_eq_reduceOption,
    reduceChildren_eq_reduceOption, List.map_append, List.reduceOption_append]

/-- A label is treated as the rule was from whose name it comes. -/
theorem treatment_canonicalName {name : String}
    (h : canonicalName (canonicalName name) = canonicalName name) :
    table.treatment (canonicalName name) = table.treatment name := by
  rw [CategoryTable.treatment, CategoryTable.treatment, h]

/-- All is left of what is left. -/
theorem Remains.again {trees : List Cst} {asts : List Ast} (h : Remains table trees asts)
    (hnames : CanonicalOnce trees) : Remains table (asts.map Ast.toCst) asts := by
  induction h with
  | nil => exact .nil
  | suppressed _ _ ih => exact ih (canonicalOnce_leaf.mp hnames)
  | leaf hleaf _ ih =>
    rw [List.map_cons, toCst_leaf]
    exact .leaf hleaf (ih (canonicalOnce_leaf.mp hnames))
  | replaced _ _ _ ihchildren ih =>
    obtain ⟨-, hchildren, htrees⟩ := canonicalOnce_rule.mp hnames
    exact (ihchildren hchildren).append (ih htrees)
  | vanished _ _ _ _ ih => exact ih (canonicalOnce_rule.mp hnames).2.2
  | @kept name _ _ _ _ _ hwrapper himportant _ ihchildren ih =>
    obtain ⟨hname, hchildren, htrees⟩ := canonicalOnce_rule.mp hnames
    rw [← treatment_canonicalName hname] at hwrapper himportant
    rw [List.map_cons, toCst_rule]
    have hkept := Remains.kept (ihchildren hchildren) hwrapper himportant (ih htrees)
    rwa [hname] at hkept

/-- The empty rule comes out again, whatever the category of its name is. -/
theorem reduce_emptyRoot (table : CategoryTable) :
    reduce table (.rule "root" []) = .rule "root" [] := by
  have hlabel : canonicalName "root" = "root" := by decide +kernel
  rw [reduce_eq_iff]
  by_cases himportant : table.treatment "root" = some .important
  · left
    have hone : table.treatment "root" = some .wrapper → ([] : List Ast).length ≠ 1 :=
      fun _ => Nat.zero_ne_one
    have hkept := Remains.kept .nil hone (fun _ => himportant) .nil
    rwa [hlabel] at hkept
  · right
    exact ⟨.vanished .nil himportant .nil, rfl⟩

/-- Reducing an abstract tree once more changes nothing, if the rule names of the concrete tree
have no suffix left once one is dropped. -/
theorem reduce_idempotent (table : CategoryTable) (tree : Cst)
    (hnames : ∀ name, .rule name ∈ tree.nodes →
      canonicalName (canonicalName name) = canonicalName name) :
    reduce table (Ast.toCst (reduce table tree)) = reduce table tree := by
  rcases (reduce_eq_iff table tree _).mp rfl with hremains | ⟨-, hroot⟩
  · have hcanonical : CanonicalOnce [tree] := by
      rwa [CanonicalOnce, Tree.nodesAll_singleton]
    have hagain := hremains.again hcanonical
    exact (reduce_eq_iff table _ _).mpr (.inl hagain)
  · rw [hroot]
    exact reduce_emptyRoot table

/-- A level of expressions gives way to the name in it, and an empty item is kept under the label
that lacks the suffix. Both are the same the second time. -/
theorem reduce_idempotent_item :
    let tree : Cst := .rule "crate"
      [.rule "expressionContext"
        [.leaf ⟨"(", some "LPAREN"⟩, .rule "path" [.leaf ⟨"x", some "IDENT"⟩]],
      .rule "itemContext" []]
    let ast : Ast := .rule "crate" [.leaf "x", .rule "item" []]
    (∀ name, .rule name ∈ tree.nodes → canonicalName (canonicalName name) = canonicalName name) ∧
      reduce .standard tree = ast ∧ reduce .standard (Ast.toCst ast) = ast := by
  intro tree ast
  have hnames : ∀ name, .rule name ∈ tree.nodes →
      canonicalName (canonicalName name) = canonicalName name := by
    have hnodes : tree.nodes = [.rule "crate", .rule "expressionContext",
        .leaf ⟨"(", some "LPAREN"⟩, .rule "path", .leaf ⟨"x", some "IDENT"⟩,
        .rule "itemContext"] := rfl
    have hall : ∀ name ∈ ["crate", "expressionContext", "path", "itemContext"],
        canonicalName (canonicalName name) = canonicalName name := by decide +kernel
    intro name hname
    exact hall name (by simpa [hnodes] using hname)
  have hreduce : reduce .standard tree = ast := by
    rw [reduce_eq_getD]
    rfl
  refine ⟨hnames, hreduce, ?_⟩
  rw [← hreduce]
  exact reduce_idempotent .standard tree hnames

end CrateAnalysis
