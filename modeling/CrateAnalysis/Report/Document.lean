import CrateAnalysis.Analysis.Result
import CrateAnalysis.Json.Basic

/-!
# Response documents

The result of an analysis is handed out as a JSON document with the members `success`,
`tokens`, `parseTree`, `ast` and `errors`, in this order.
-/

set_option autoImplicit false

namespace CrateAnalysis

namespace Report

/-- A token in a document. -/
def ofToken (token : Token) : Json :=
  .obj [("type", .str token.kind), ("text", .str token.text),
    ("line", .int token.position.line), ("column", .int token.position.column)]

/-- A diagnostic in a document. -/
def ofDiagnostic (diagnostic : Diagnostic) : Json :=
  .obj [("line", .int diagnostic.position.line),
    ("column", .int diagnostic.position.column), ("message", .str diagnostic.message)]

/-- The written forms of a concrete and of an abstract tree. -/
def ofForms (lisp cstDrawing astDrawing : String) : List (String × Json) :=
  [("parseTree", .obj [("lisp", .str lisp), ("dot", .str cstDrawing)]),
    ("ast", .obj [("dot", .str astDrawing)])]

/-- The document of an analysis. -/
def ofResult (result : AnalysisResult) : Json :=
  .obj ([("success", .bool result.success), ("tokens", .arr (result.tokens.map ofToken))] ++
    ofForms result.lisp result.cstDrawing result.astDrawing ++
    [("errors", .arr (result.diagnostics.map ofDiagnostic))])

/-- The document of a reduction: the written forms of a concrete tree and of its abstract
tree. -/
def ofReduction (tree : Cst) : Json :=
  .obj (ofForms tree.toLisp (Dot.drawCst tree) (Dot.drawAst (reduce .standard tree)))

end Report

end CrateAnalysis
