import CrateAnalysis.Proofs.Grammar.Derivations
import CrateAnalysis.Tree.Basic

/-!
# Forests of a grammar

`Grammar.Forest` relates a list of symbols to the trees that lay it out and to the word it
derives, each terminal of the word paired with its leaf. A production with a label makes one
node, and the trees of a production without a label stand among those of the symbols around it.
Every derivation has a forest and every forest is one of a derivation, whose leaves it keeps in
order.
-/

set_option autoImplicit false

namespace CrateAnalysis

namespace Tree

/-- The leaves of trees side by side are listed in the order of the trees. -/
theorem leavesAll_append {α : Type} (ts us : List (Tree α)) :
    leavesAll (ts ++ us) = leavesAll ts ++ leavesAll us := by
  induction ts with
  | nil => rfl
  | cons t ts ih => rw [List.cons_append, leavesAll, leavesAll, ih, List.append_assoc]

end Tree

namespace Grammar

variable {T N α : Type} {g : Grammar T N}

/-- The trees lay out the symbols over the terminals with their leaves. -/
inductive Forest (g : Grammar T N) : List (Symbol T N) → List (Tree α) → List (T × α) → Prop
  | nil : Forest g [] [] []
  | terminal {t : T} {leaf : α} {symbols : List (Symbol T N)} {trees : List (Tree α)}
      {word : List (T × α)} :
      Forest g symbols trees word →
      Forest g (.terminal t :: symbols) (.leaf leaf :: trees) ((t, leaf) :: word)
  | labelled {n : N} {p : Production T N} {label : String} {symbols : List (Symbol T N)}
      {children trees : List (Tree α)} {inner word : List (T × α)} :
      p ∈ g.alternatives n → p.label? = some label → Forest g p.rhs children inner →
      Forest g symbols trees word →
      Forest g (.nonterminal n :: symbols) (.rule label children :: trees) (inner ++ word)
  | spliced {n : N} {p : Production T N} {symbols : List (Symbol T N)}
      {children trees : List (Tree α)} {inner word : List (T × α)} :
      p ∈ g.alternatives n → p.label? = none → Forest g p.rhs children inner →
      Forest g symbols trees word →
      Forest g (.nonterminal n :: symbols) (children ++ trees) (inner ++ word)

/-- Forests of two parts are a forest of the parts in a row. -/
theorem Forest.append {first second : List (Symbol T N)} {trees others : List (Tree α)}
    {u v : List (T × α)} (hu : g.Forest first trees u) (hv : g.Forest second others v) :
    g.Forest (first ++ second) (trees ++ others) (u ++ v) := by
  induction hu with
  | nil => exact hv
  | terminal _ ih => exact .terminal ih
  | labelled hp hlabel hrhs _ _ ih =>
    rw [List.append_assoc]
    exact .labelled hp hlabel hrhs ih
  | spliced hp hlabel hrhs _ _ ih =>
    rw [List.append_assoc, List.append_assoc]
    exact .spliced hp hlabel hrhs ih

/-- No leaf is dropped, repeated or moved. -/
theorem Forest.leavesAll_eq {symbols : List (Symbol T N)} {trees : List (Tree α)}
    {word : List (T × α)} (h : g.Forest symbols trees word) :
    Tree.leavesAll trees = word.map (·.2) := by
  induction h with
  | nil => rfl
  | terminal _ ih => simp [Tree.leavesAll, Tree.leaves, ih]
  | labelled _ _ _ _ ihrhs ih => simp [Tree.leavesAll, Tree.leaves, ihrhs, ih]
  | spliced _ _ _ _ ihrhs ih => simp [Tree.leavesAll_append, ihrhs, ih]

/-- Every derivation has a forest over any leaves of its word. -/
theorem Derives.exists_forest {symbols : List (Symbol T N)} {word : List T}
    (h : g.Derives symbols word) (leaf : T → α) :
    ∃ trees : List (Tree α), g.Forest symbols trees (word.map fun t => (t, leaf t)) := by
  induction h with
  | nil => exact ⟨[], .nil⟩
  | terminal _ ih =>
    obtain ⟨trees, ih⟩ := ih
    exact ⟨_, .terminal ih⟩
  | @nonterminal n p symbols u v hp hrhs hsymbols ihrhs ih =>
    obtain ⟨children, ihrhs⟩ := ihrhs
    obtain ⟨trees, ih⟩ := ih
    rw [List.map_append]
    cases hlabel : p.label? with
    | none => exact ⟨_, .spliced hp hlabel ihrhs ih⟩
    | some label => exact ⟨_, .labelled hp hlabel ihrhs ih⟩

end Grammar

end CrateAnalysis
