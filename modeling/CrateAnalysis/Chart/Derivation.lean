import CrateAnalysis.Chart.Basic
import CrateAnalysis.Tree.Basic

/-!
# Trees of a chart

When a word has several derivations, its tree is fixed from the root downwards: of the
alternatives that match a nonterminal over a stretch of the word, the one with the smallest
number is taken, and its symbols are laid out where the chart found them first. A production
with a label makes a node; the children of one without a label stand in its place.
-/

set_option autoImplicit false

namespace CrateAnalysis

namespace Chart

variable {T N α : Type} [DecidableEq T] [DecidableEq N]

/-- The trees of the symbols that an item has matched up to the place `stop`, the item being
one of the column there. The word's terminals stand for the leaves of the same index. -/
def below? (chart : Chart T N) (leaves : Array α) :
    (depth : Nat) → Item T N → (stop : Nat) → Option (List (Tree α))
  | 0, _, _ => none
  | depth + 1, item, stop =>
    match item.matched with
    | 0 => some []
    | matched + 1 => do
      let symbol ← item.production.rhs[matched]?
      let shorter := { item with matched := matched }
      let earlier ← (Chart.column chart item.split).find? shorter.same
      let left ← below? chart leaves depth earlier item.split
      match symbol with
      | .terminal _ =>
        let leaf ← leaves[item.split]?
        some (left ++ [.leaf leaf])
      | .nonterminal n =>
        let whole ← best? (Chart.column chart stop) n item.split
        let children ← below? chart leaves depth whole stop
        match whole.production.label? with
        | some label => some (left ++ [.rule label children])
        | none => some (left ++ children)

/-- The children of the root for a whole word. Along a path downwards the stretch of the word
shrinks, and as long as it stays the same no place of the dot comes twice. -/
def children? (g : Grammar T N) (chart : Chart T N) (leaves : Array α) :
    Option (List (Tree α)) := do
  let stop := reached chart
  let whole ← best? (Chart.column chart stop) g.start 0
  below? chart leaves ((g.dotCount + 1) * (stop + 2)) whole stop

end Chart

end CrateAnalysis
