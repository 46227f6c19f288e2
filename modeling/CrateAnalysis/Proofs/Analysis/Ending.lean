import CrateAnalysis.Analysis.Result

/-!
# How an analysis ends

An analysis asks the adapter for tokens, then the adapter for a tree, then the reducer, and the
first of them that fails ends it. `Ending` lists the four ways in which this can go, each with
what has been found by then: the tokens, the two trees and the diagnostics. Every analysis ends
in one of these ways, and what it hands out says the same as what it found.
-/

set_option autoImplicit false

namespace CrateAnalysis

/-- The ways in which the analysis of a source text ends, with what it has found. A stage that
fails leaves its reason as the last diagnostic, after those of the stages that did not fail. -/
inductive Ending (adapter : Adapter) (reducer : Reducer) (source : String) : Findings → Prop
  /-- There are no tokens. -/
  | untokenized {reason : String} :
      adapter.tokenize source = .error reason →
      Ending adapter reducer source
        ⟨[], none, none, [⟨⟨0, 0⟩, "Error inesperado: " ++ reason⟩]⟩
  /-- There are tokens, but no concrete tree. -/
  | unparsed {lexed : LexOutcome} {reason : String} :
      adapter.tokenize source = .ok lexed → adapter.parse source = .error reason →
      Ending adapter reducer source
        ⟨lexed.tokens, none, none,
          lexed.diagnostics ++ [⟨⟨0, 0⟩, "Error inesperado: " ++ reason⟩]⟩
  /-- There is a concrete tree, but no abstract one. -/
  | unreduced {lexed : LexOutcome} {parsed : ParseOutcome} {reason : String} :
      adapter.tokenize source = .ok lexed → adapter.parse source = .ok parsed →
      reducer parsed.tree = .error reason →
      Ending adapter reducer source
        ⟨lexed.tokens, some parsed.tree, none,
          lexed.diagnostics ++ parsed.diagnostics ++ [⟨⟨0, 0⟩, "Error inesperado: " ++ reason⟩]⟩
  /-- No stage fails. -/
  | whole {lexed : LexOutcome} {parsed : ParseOutcome} {ast : Ast} :
      adapter.tokenize source = .ok lexed → adapter.parse source = .ok parsed →
      reducer parsed.tree = .ok ast →
      Ending adapter reducer source
        ⟨lexed.tokens, some parsed.tree, some ast, lexed.diagnostics ++ parsed.diagnostics⟩

/-- Every analysis ends in one of the four ways. -/
theorem ending_investigate (adapter : Adapter) (reducer : Reducer) (source : String) :
    Ending adapter reducer source (investigate adapter reducer source) := by
  unfold investigate
  cases hlexed : adapter.tokenize source with
  | error reason => exact .untokenized hlexed
  | ok lexed =>
    cases hparsed : adapter.parse source with
    | error reason => exact .unparsed hlexed hparsed
    | ok parsed =>
      cases hreduced : reducer parsed.tree with
      | error reason => simpa [hreduced] using .unreduced hlexed hparsed hreduced
      | ok ast => simpa [hreduced] using .whole hlexed hparsed hreduced

/-- There is no abstract tree without a concrete one. -/
theorem Ending.isSome_cst {adapter : Adapter} {reducer : Reducer} {source : String}
    {found : Findings} (h : Ending adapter reducer source found) (hast : found.ast?.isSome) :
    found.cst?.isSome := by
  cases h with
  | untokenized => exact absurd hast (by simp)
  | unparsed => exact absurd hast (by simp)
  | unreduced => rfl
  | whole => rfl

end CrateAnalysis
