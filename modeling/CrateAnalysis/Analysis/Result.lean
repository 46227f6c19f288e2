import CrateAnalysis.Dot.Graph
import CrateAnalysis.Reduction.Basic
import CrateAnalysis.Syntax.Parse

/-!
# One analysis

An analysis runs four stages on a source text: tokens, concrete tree, the written forms of
that tree, abstract tree and its drawing. The tokens and the concrete tree come from an
adapter and the abstract tree from a reducer, and each of these may fail with a reason. A
failure ends the analysis: what was found before it is kept, and the reason becomes the last
diagnostic. An analysis succeeds when it has no diagnostic at all.
-/

set_option autoImplicit false

namespace CrateAnalysis

/-- Where the tokens and the concrete tree of a source text come from. -/
structure Adapter where
  tokenize : String → Except String LexOutcome
  parse : String → Except String ParseOutcome

/-- The lexer and the parser of this library, which never fail. -/
def Adapter.standard : Adapter :=
  ⟨fun code => .ok (CrateAnalysis.tokenize code), fun code => .ok (CrateAnalysis.parse code)⟩

/-- Where abstract trees come from. -/
abbrev Reducer := Cst → Except String Ast

/-- The reduction by a category table, which never fails. -/
def Reducer.ofTable (table : CategoryTable) : Reducer := fun tree => .ok (reduce table tree)

/-- The reduction by the categories of a crate. -/
def Reducer.standard : Reducer := Reducer.ofTable .standard

/-- What an analysis has found so far. -/
structure Findings where
  tokens : List Token
  cst? : Option Cst
  ast? : Option Ast
  diagnostics : List Diagnostic

namespace Findings

/-- Nothing is found yet. -/
def empty : Findings := ⟨[], none, none, []⟩

/-- A stage failed. -/
def fail (found : Findings) (reason : String) : Findings :=
  { found with diagnostics := found.diagnostics ++ [.stageFailure reason] }

/-- The concrete tree is found, with the diagnostics about it. -/
def addTree (found : Findings) (outcome : ParseOutcome) : Findings :=
  { found with
    cst? := some outcome.tree
    diagnostics := found.diagnostics ++ outcome.diagnostics }

end Findings

/-- Runs the stages on a source text. -/
def investigate (adapter : Adapter) (reducer : Reducer) (source : String) : Findings :=
  match adapter.tokenize source with
  | .error reason => Findings.empty.fail reason
  | .ok lexed =>
    let found : Findings := ⟨lexed.tokens, none, none, lexed.diagnostics⟩
    match adapter.parse source with
    | .error reason => found.fail reason
    | .ok parsed =>
      let found := found.addTree parsed
      match reducer parsed.tree with
      | .error reason => found.fail reason
      | .ok ast => { found with ast? := some ast }

/-- The result of an analysis, in the form in which it is handed out. The written forms of a
tree that was not found are empty. -/
structure AnalysisResult where
  success : Bool
  tokens : List Token
  lisp : String
  cstDrawing : String
  astDrawing : String
  diagnostics : List Diagnostic
deriving DecidableEq

/-- The result of what was found. -/
def Findings.result (found : Findings) : AnalysisResult where
  success := found.diagnostics.isEmpty
  tokens := found.tokens
  lisp := found.cst?.elim "" Tree.toLisp
  cstDrawing := found.cst?.elim "" Dot.drawCst
  astDrawing := found.ast?.elim "" Dot.drawAst
  diagnostics := found.diagnostics

/-- The result of one analysis with the standard reduction. -/
def analyse (adapter : Adapter) (source : String) : AnalysisResult :=
  (investigate adapter .standard source).result

end CrateAnalysis
